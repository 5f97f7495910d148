import ProtoSchema.Proofs.Concatenation
import ProtoSchema.Proofs.Scanning

/-!
# Tokens but for their places

Which tokens a text has depends on its characters and not on where they stand. So blanks may be put
in beside a blank, a mark or a line break, and a blank line behind a line break; the first changes
no token but for its place, and the second adds a line break next to another one.

* `Lexer.Like`: lexers that differ at most in where the word starts that they hold.
* `Lexer.shapes`: the kinds and words that a lexer makes of a text; `shapes_append` cuts the text.
* `Lexer.shapes_insert_gaps`, `map_shape_tokenize_break`: blanks and blank lines.
-/

namespace ProtoSchema

open OpenComment

/-- Lexers that differ at most in where the word starts that they hold. -/
structure Lexer.Like (lexer lexer' : Lexer) : Prop where
  comment : lexer'.comment = lexer.comment
  word : lexer'.word.map (fun word => (word.text, word.literal)) =
    lexer.word.map fun word => (word.text, word.literal)

namespace Lexer

variable {lexer lexer' : Lexer} {characters characters' : List (Char × Position)}
  {text first second : List Char}

theorem Like.refl (lexer : Lexer) : lexer.Like lexer := ⟨rfl, rfl⟩

/-- Both hold a word or none does. -/
theorem Like.cases (h : lexer.Like lexer') :
    (∃ comment, lexer = ⟨none, comment⟩ ∧ lexer' = ⟨none, comment⟩) ∨
      ∃ start start' text literal comment, lexer = ⟨some ⟨start, text, literal⟩, comment⟩ ∧
        lexer' = ⟨some ⟨start', text, literal⟩, comment⟩ := by
  obtain ⟨word, comment⟩ := lexer
  obtain ⟨word', comment'⟩ := lexer'
  obtain ⟨rfl, hword⟩ := h
  cases word with
  | none =>
    obtain rfl : word' = none := by simpa using hword
    exact .inl ⟨_, rfl, rfl⟩
  | some word =>
    obtain ⟨⟨start', text', literal'⟩, rfl, hsame⟩ := Option.map_eq_some_iff.1 hword
    obtain ⟨start, text, literal⟩ := word
    cases hsame
    exact .inr ⟨_, _, _, _, _, rfl, rfl⟩

theorem Like.flush (h : lexer.Like lexer') :
    lexer'.flush.1.map Token.shape = lexer.flush.1.map Token.shape ∧
      lexer'.flush.2 = lexer.flush.2 := by
  rcases h.cases with ⟨comment, rfl, rfl⟩ | ⟨start, start', text, literal, comment, rfl, rfl⟩
  · exact ⟨rfl, rfl⟩
  · exact ⟨rfl, rfl⟩

theorem Like.extend (h : lexer.Like lexer') (c : Char) (position position' : Position) :
    (lexer.extend c position).Like (lexer'.extend c position') := by
  rcases h.cases with ⟨comment, rfl, rfl⟩ | ⟨start, start', text, literal, comment, rfl, rfl⟩
  · exact ⟨rfl, rfl⟩
  · exact ⟨rfl, rfl⟩

/-- **A character is read alike wherever it stands.** -/
theorem Like.step (h : lexer.Like lexer') (c : Char) (position position' : Position) :
    (lexer'.step c position').1.map Token.shape = (lexer.step c position).1.map Token.shape ∧
      (lexer.step c position).2.Like (lexer'.step c position').2 := by
  have hliteral : lexer'.inLiteral = lexer.inLiteral := by
    rcases h.cases with ⟨comment, rfl, rfl⟩ | ⟨start, start', text, literal, comment, rfl, rfl⟩
    · rfl
    · rfl
  obtain ⟨htokens, hflush⟩ := h.flush
  have hextend := h.extend c position position'
  unfold Lexer.step
  rw [hliteral]
  split
  · simp only [List.map_append, htokens, hflush]
    exact ⟨rfl, .refl _⟩
  · split
    · exact ⟨rfl, hextend⟩
    · split
      · exact ⟨htokens, hflush ▸ .refl _⟩
      · split
        · simp only [List.map_append, htokens, hflush]
          exact ⟨rfl, .refl _⟩
        · exact ⟨rfl, hextend⟩

theorem Like.feed (h : lexer.Like lexer')
    (hcharacters : characters'.map Prod.fst = characters.map Prod.fst) :
    (lexer'.feed characters').1.map Token.shape = (lexer.feed characters).1.map Token.shape ∧
      (lexer.feed characters).2.Like (lexer'.feed characters').2 := by
  induction characters generalizing lexer lexer' characters' with
  | nil =>
    obtain rfl : characters' = [] := by simpa using hcharacters
    exact ⟨rfl, h⟩
  | cons character rest ih =>
    obtain ⟨⟨c', position'⟩, rest', rfl, hc, hrest⟩ := List.map_eq_cons_iff.1 hcharacters
    obtain ⟨c, position⟩ := character
    obtain rfl : c' = c := hc
    obtain ⟨hstep, hafter⟩ := h.step c' position position'
    obtain ⟨hfeed, hlast⟩ := ih hafter hrest
    refine ⟨?_, hlast⟩
    rw [Lexer.feed, Lexer.feed, List.map_append, List.map_append, hstep, hfeed]

/-! ### Shapes -/

/-- The lexer after a text. -/
def after (lexer : Lexer) (text : List Char) : Lexer := (lexer.feed (Position.start.along text)).2

/-- The kinds and words that are complete when a text has been read. -/
def complete (lexer : Lexer) (text : List Char) : List (TokenKind × String) :=
  (lexer.feed (Position.start.along text)).1.map Token.shape

/-- The kinds and words of a text. -/
def shapes (lexer : Lexer) (text : List Char) : List (TokenKind × String) :=
  (lexer.scan (Position.start.along text)).map Token.shape

theorem map_fst_along (position : Position) (text : List Char) :
    (position.along text).map Prod.fst = text := by
  induction text generalizing position with
  | nil => rfl
  | cons c rest ih => rw [Position.along, List.map_cons, ih]

/-- What a text gives does not depend on where it starts. -/
theorem map_shape_scan (h : lexer.Like lexer') (position : Position) (text : List Char) :
    (lexer'.scan (position.along text)).map Token.shape = lexer.shapes text := by
  have hsame : (position.along text).map Prod.fst = (Position.start.along text).map Prod.fst := by
    rw [map_fst_along, map_fst_along]
  obtain ⟨hfeed, hlast⟩ := h.feed hsame
  rw [shapes, scan, scan, List.map_append, List.map_append, hfeed, hlast.flush.1]

/-- **A text gives what its parts give**, the second after the first. -/
theorem shapes_append (lexer : Lexer) (first second : List Char) :
    lexer.shapes (first ++ second) = lexer.complete first ++ (lexer.after first).shapes second := by
  rw [shapes, Position.along_append, scan_append, List.map_append, map_shape_scan (.refl _)]
  rfl

theorem shapes_cons (lexer : Lexer) (c : Char) (rest : List Char) :
    lexer.shapes (c :: rest) = (lexer.step c (Position.start.after c)).1.map Token.shape ++
      (lexer.step c (Position.start.after c)).2.shapes rest := by
  rw [shapes, Position.along, scan_cons, List.map_append, map_shape_scan (.refl _)]

/-! ### Blanks and blank lines -/

/-- A blank that does not end a line. -/
def isGap (c : Char) : Bool := isBlank c && c != '\n' && c != '\r'

theorem flush_of_word (h : lexer.word = none) : lexer.flush = ([], lexer) := by
  rw [flush, h]

theorem flush_flush (lexer : Lexer) : lexer.flush.2.flush = ([], lexer.flush.2) :=
  flush_of_word lexer.word_flush

theorem inLiteral_flush (lexer : Lexer) : lexer.flush.2.inLiteral = false := by
  rw [inLiteral, word_flush]
  rfl

/-- A line break ends the word and, if one is open, the line comment. -/
theorem step_break (lexer : Lexer) (position : Position) :
    lexer.step '\n' position = (lexer.flush.1 ++ [.lineBreak position],
      ⟨none, afterLine lexer.flush.2.comment⟩) := by
  rw [step, if_pos rfl]
  simp only [word_flush]

theorem shapes_break (lexer : Lexer) (rest : List Char) :
    lexer.shapes ('\n' :: rest) = lexer.flush.1.map Token.shape ++
      (.lineEnd, "\n") :: shapes ⟨none, afterLine lexer.flush.2.comment⟩ rest := by
  rw [shapes_cons, step_break, List.map_append, List.append_assoc]
  rfl

/-- A blank ends the word. -/
theorem shapes_gap {c : Char} (hc : isGap c = true) (hliteral : lexer.inLiteral = false)
    (rest : List Char) :
    lexer.shapes (c :: rest) = lexer.flush.1.map Token.shape ++ lexer.flush.2.shapes rest := by
  simp only [isGap, Bool.and_eq_true, bne_iff_ne] at hc
  rw [shapes_cons, step, if_neg hc.1.2, hliteral, if_neg Bool.false_ne_true, if_pos hc.1.1]

/-- Blanks in a row end the word. -/
theorem shapes_gaps {gaps : List Char} (hgaps : ∀ c ∈ gaps, isGap c = true) (hne : gaps ≠ [])
    (hliteral : lexer.inLiteral = false) (rest : List Char) :
    lexer.shapes (gaps ++ rest) = lexer.flush.1.map Token.shape ++ lexer.flush.2.shapes rest := by
  induction gaps generalizing lexer with
  | nil => exact absurd rfl hne
  | cons c more ih =>
    rw [List.forall_mem_cons] at hgaps
    rw [List.cons_append, shapes_gap hgaps.1 hliteral]
    cases more with
    | nil => rfl
    | cons next others =>
      rw [ih hgaps.2 (List.cons_ne_nil _ _) lexer.inLiteral_flush, flush_flush]
      rfl

/-- A word that ends in front of a text may as well have ended before. -/
theorem scan_of_endsWord (hliteral : lexer.inLiteral = false) (htext : endsWord text = true)
    (position : Position) :
    lexer.flush.1 ++ lexer.flush.2.scan (position.along text) =
      lexer.scan (position.along text) := by
  cases text with
  | nil => simp [scan, Position.along, feed, flush_flush]
  | cons c rest =>
    have hflush := lexer.inLiteral_flush
    rw [Position.along, scan_cons, scan_cons, step, step, hliteral, hflush, flush_flush]
    -- a line break, a blank and a mark all end the word first
    by_cases hbreak : c = '\n'
    · rw [if_pos hbreak, if_pos hbreak]
      simp
    · rw [if_neg hbreak, if_neg hbreak, if_neg Bool.false_ne_true]
      by_cases hblank : isBlank c = true
      · rw [if_pos hblank, if_pos hblank]
        simp
      · rw [if_neg hblank, if_neg hblank]
        have hmark : isPunctuation c = true := by simpa [endsWord, hblank] using htext
        rw [if_pos hmark, if_pos hmark]
        simp

theorem shapes_of_endsWord (hliteral : lexer.inLiteral = false) (htext : endsWord text = true) :
    lexer.flush.1.map Token.shape ++ lexer.flush.2.shapes text = lexer.shapes text := by
  have hscan := scan_of_endsWord hliteral htext .start
  rw [shapes, shapes, ← hscan, List.map_append]

/-- **Blanks beside the end of a word change nothing.** -/
theorem shapes_insert_gaps {gaps : List Char} (hgaps : ∀ c ∈ gaps, isGap c = true)
    (hliteral : lexer.inLiteral = false) (h : lexer.word = none ∨ endsWord text = true) :
    lexer.shapes (gaps ++ text) = lexer.shapes text := by
  by_cases hne : gaps = []
  · rw [hne, List.nil_append]
  · rw [shapes_gaps hgaps hne hliteral]
    rcases h with hword | htext
    · rw [flush_of_word hword]
      rfl
    · exact shapes_of_endsWord hliteral htext

end Lexer

open Lexer

/-- The lexer after a text from its start. -/
def Lexer.ofText (text : String) : Lexer := (feed {} (Reader.ofString text).characters).2

theorem Lexer.ofText_eq (text : String) : ofText text = after {} (unifyBreaks text.toList) := by
  rw [ofText, Reader.ofString, Reader.characters_eq]
  rfl

theorem map_shape_tokenize (source : String) :
    (tokenize source).map Token.shape = shapes {} (unifyBreaks source.toList) := by
  have hscan : tokenize source = scan {} (Reader.ofString source).characters := rfl
  rw [hscan, Reader.ofString, Reader.characters_eq]
  rfl

/-- **The tokens of two texts**, if the place between them is not inside a line break. -/
theorem map_shape_tokenize_append {before after : String}
    (h : before.toList.getLast? ≠ some '\r' ∨ after.toList.head? ≠ some '\n') :
    (tokenize (before ++ after)).map Token.shape =
      complete {} (unifyBreaks before.toList) ++
        (ofText before).shapes (unifyBreaks after.toList) := by
  rw [map_shape_tokenize, String.toList_append, unifyBreaks_append h, shapes_append, ofText_eq]

theorem unifyBreaks_of_not_mem {text : List Char} (h : '\r' ∉ text) : unifyBreaks text = text := by
  induction text with
  | nil => rfl
  | cons c rest ih =>
    rw [List.mem_cons, not_or] at h
    have hc : c ≠ '\r' := Ne.symm h.1
    rw [unifyBreaks, ih h.2]
    · exact fun _ hreturn _ => hc hreturn
    · exact hc

theorem unifyBreaks_of_gaps {gaps : List Char} (hgaps : ∀ c ∈ gaps, isGap c = true) :
    unifyBreaks gaps = gaps := by
  refine unifyBreaks_of_not_mem ?_
  intro hreturn
  exact absurd (hgaps _ hreturn) (by decide)

theorem endsWord_unifyBreaks {text : List Char} (h : endsWord text = true) :
    endsWord (unifyBreaks text) = true := by
  have hbreak : (isBlank '\n' || isPunctuation '\n') = true := by decide
  fun_cases unifyBreaks text with
  | case1 => rfl
  | case2 rest => exact hbreak
  | case3 rest hfeed => exact hbreak
  | case4 c rest hboth hreturn => exact h

/-- **Blanks may be put in** beside a blank, a mark or a line break outside literals. -/
theorem map_shape_tokenize_gaps {before gaps after : String}
    (hgaps : ∀ c ∈ gaps.toList, isGap c = true)
    (hliteral : (ofText before).inLiteral = false)
    (hplace : before.toList.getLast? ≠ some '\r' ∨ after.toList.head? ≠ some '\n')
    (hword : (ofText before).word = none ∨ endsWord after.toList = true) :
    (tokenize (before ++ (gaps ++ after))).map Token.shape =
      (tokenize (before ++ after)).map Token.shape := by
  have hgap : gaps.toList.getLast? ≠ some '\r' := by
    intro hlast
    exact absurd (hgaps _ (List.mem_of_getLast? hlast)) (by decide)
  have hbefore : before.toList.getLast? ≠ some '\r' ∨ (gaps ++ after).toList.head? ≠ some '\n' := by
    rw [String.toList_append]
    cases hfirst : gaps.toList with
    | nil => exact hplace
    | cons c rest =>
      right
      rintro ⟨⟩
      exact absurd (hgaps _ (by rw [hfirst]; exact List.mem_cons_self)) (by decide)
  rw [map_shape_tokenize_append hplace, map_shape_tokenize_append hbefore, String.toList_append,
    unifyBreaks_append (.inl hgap), unifyBreaks_of_gaps hgaps,
    shapes_insert_gaps hgaps hliteral (hword.imp id endsWord_unifyBreaks)]

/-- After a line feed a word neither goes on nor is one held. -/
theorem exists_ofText_of_break {before : String} (h : before.toList.getLast? = some '\n') :
    ∃ shapes comment, complete {} (unifyBreaks before.toList) = shapes ++ [(.lineEnd, "\n")] ∧
      ofText before = ⟨none, afterLine comment⟩ := by
  obtain ⟨characters, position, hcharacters⟩ := exists_characters h
  have hfeed : feed {} (characters ++ [('\n', position)]) =
      ((feed {} characters).1 ++ ((feed {} characters).2.flush.1 ++ [.lineBreak position]),
        ⟨none, afterLine (feed {} characters).2.flush.2.comment⟩) := by
    rw [feed_append, feed, step_break]
    simp [feed]
  have hofText : ofText before = ⟨none, afterLine (feed {} characters).2.flush.2.comment⟩ := by
    rw [ofText, hcharacters, hfeed]
  refine ⟨((feed {} characters).1 ++ (feed {} characters).2.flush.1).map Token.shape, _, ?_,
    hofText⟩
  rw [Reader.ofString, Reader.characters_eq] at hcharacters
  rw [complete, hcharacters, hfeed]
  simp [Token.shape, Token.lineBreak]

/-- **A blank line may be put in** behind a line feed: there is one more line break, next to the one
before it. -/
theorem map_shape_tokenize_break {before : String} (h : before.toList.getLast? = some '\n')
    (after : String) :
    ∃ shapes others,
      (tokenize (before ++ after)).map Token.shape = shapes ++ (.lineEnd, "\n") :: others ∧
      (tokenize (before ++ ("\n" ++ after))).map Token.shape =
        shapes ++ (.lineEnd, "\n") :: (.lineEnd, "\n") :: others := by
  obtain ⟨shapes, comment, hcomplete, hlexer⟩ := exists_ofText_of_break h
  have hreturn : before.toList.getLast? ≠ some '\r' := by
    rw [h]
    decide
  have hidem : ∀ comment, afterLine (afterLine comment) = afterLine comment := by
    rintro (_ | _ | _) <;> rfl
  have hbreak : ("\n" ++ after).toList = ['\n'] ++ after.toList := by
    rw [String.toList_append]
    rfl
  refine ⟨shapes, (Lexer.mk none (afterLine comment)).shapes (unifyBreaks after.toList), ?_, ?_⟩
  · rw [map_shape_tokenize_append (.inl hreturn), hcomplete, hlexer, List.append_assoc]
    rfl
  · rw [map_shape_tokenize_append (.inl hreturn), hcomplete, hlexer, hbreak,
      unifyBreaks_append (.inl (by decide)), List.append_assoc]
    have hunify : unifyBreaks ['\n'] = ['\n'] := by decide
    rw [hunify, List.singleton_append, List.singleton_append, shapes_break]
    simp [flush, hidem]

end ProtoSchema
