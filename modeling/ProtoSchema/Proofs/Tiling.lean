import ProtoSchema.Token.Lexer

/-!
# Tokens tile the lines of a text

Every character of a text stands in one of its lines, and the tokens of the text cover these lines:
a token is the piece of its line that starts at its column, tokens come in the order of the text,
and only blanks lie between them.

* `Reader.characters_eq`: the places of characters, counted along the text.
* `Tiles`: the tokens of a single line as pieces of it.
* `TilesLines`: the tokens of several lines, with a line break after each but the last.
* `Cut`: where a line is cut into words and marks; `Lexer.cut_scan` reads the cuts off the lexer.
* `tiling_tokenize`: the tokens of a text tile its lines.
-/

namespace ProtoSchema

/-! ### Characters with their places -/

/-- The characters of a text whose line breaks are line feeds, each with its place. -/
def Position.along : Position → List Char → List (Char × Position)
  | _, [] => []
  | position, c :: rest => (c, position.after c) :: (position.after c).along rest

theorem Position.along_append (position : Position) (first second : List Char) :
    position.along (first ++ second) =
      position.along first ++ (first.foldl Position.after position).along second := by
  induction first generalizing position with
  | nil => rfl
  | cons c rest ih => simp only [List.cons_append, along, List.foldl_cons, ih]

theorem Position.foldl_after {text : List Char} (h : '\n' ∉ text) (line column : Nat) :
    text.foldl Position.after ⟨line, column⟩ = ⟨line, column + text.length⟩ := by
  induction text generalizing column with
  | nil => rfl
  | cons c rest ih =>
    rw [List.mem_cons, not_or] at h
    have hafter : Position.after ⟨line, column⟩ c = ⟨line, column + 1⟩ := by
      simp [after, Ne.symm h.1]
    rw [List.foldl_cons, hafter, ih h.2, List.length_cons, Nat.add_assoc, Nat.add_comm 1]

theorem Reader.characters_of_next? {reader after : Reader} {c : Char}
    (h : reader.next? = some (c, after)) :
    reader.characters = (c, after.position) :: after.characters := by
  rw [characters]
  split
  · rename_i hnone
    rw [h] at hnone
    cases hnone
  · rename_i hsome
    rw [h] at hsome
    cases hsome
    rfl

/-- **A reader gives the characters of the text with its line breaks unified**, each at the place
that is counted up from the place of the reader. -/
theorem Reader.characters_eq (rest : List Char) (position : Position) :
    (Reader.mk rest position).characters = position.along (unifyBreaks rest) := by
  fun_induction unifyBreaks rest generalizing position with
  | case1 => rw [characters]; rfl
  | case2 rest ih => rw [characters_of_next? rfl, ih]; rfl
  | case3 rest hfeed ih =>
    have hnext : next? ⟨'\r' :: rest, position⟩ = some ('\n', ⟨rest, position.after '\n'⟩) := by
      cases rest with
      | nil => rfl
      | cons first others => grind [next?]
    rw [characters_of_next? hnext, ih]
    rfl
  | case4 c rest hboth hreturn ih =>
    have hnext : next? ⟨c :: rest, position⟩ = some (c, ⟨rest, position.after c⟩) := by
      unfold next?
      split <;> simp_all
    rw [characters_of_next? hnext, ih]
    rfl

/-! ### The lines of a text -/

/-- The lines of a text, at least one: a line ends with a line feed, a carriage return, or a
carriage return and a line feed. -/
def textLines : List Char → List (List Char)
  | [] => [[]]
  | '\r' :: '\n' :: rest => [] :: textLines rest
  | '\r' :: rest => [] :: textLines rest
  | '\n' :: rest => [] :: textLines rest
  | c :: rest =>
    match textLines rest with
    | [] => [[c]]
    | line :: others => (c :: line) :: others

theorem textLines_ne_nil (text : List Char) : textLines text ≠ [] := by
  fun_induction textLines text <;> simp

/-- A line feed between two lines. -/
theorem intercalate_break (lines : List (List Char)) (h : lines ≠ []) :
    ['\n'].intercalate ([] :: lines) = '\n' :: ['\n'].intercalate lines := by
  rw [List.intercalate_cons_of_ne_nil h]
  rfl

/-- A text with its line breaks unified is made of its lines, with line feeds between them. -/
theorem unifyBreaks_eq (text : List Char) :
    unifyBreaks text = ['\n'].intercalate (textLines text) := by
  fun_induction textLines text with
  | case1 => rfl
  | case2 rest ih => rw [intercalate_break _ (textLines_ne_nil _), ← ih, unifyBreaks]
  | case3 rest hfeed ih =>
    rw [intercalate_break _ (textLines_ne_nil _), ← ih, unifyBreaks]
    exact hfeed
  | case4 rest ih =>
    rw [intercalate_break _ (textLines_ne_nil _), ← ih, unifyBreaks] <;> simp
  | case5 c rest hreturn hfeed hboth hnil ih => exact absurd hnil (textLines_ne_nil _)
  | case6 c rest hboth hreturn hfeed line others hlines ih =>
    have hstep : unifyBreaks (c :: rest) = c :: unifyBreaks rest := by
      rw [unifyBreaks] <;> simp_all
    rw [hstep, ih, hlines]
    cases others with
    | nil => simp
    | cons next others => simp [List.intercalate_cons_cons]

/-- A line has no character that breaks lines. -/
theorem not_mem_textLines (text : List Char) :
    ∀ line ∈ textLines text, '\n' ∉ line ∧ '\r' ∉ line := by
  fun_induction textLines text with
  | case1 => simp
  | case2 rest ih => simpa using ih
  | case3 rest hfeed ih => simpa using ih
  | case4 rest ih => simpa using ih
  | case5 c rest hboth hreturn hfeed hnil ih => exact absurd hnil (textLines_ne_nil _)
  | case6 c rest hboth hreturn hfeed line others hlines ih =>
    rw [hlines, List.forall_mem_cons] at ih
    rw [List.forall_mem_cons, List.mem_cons, List.mem_cons, not_or, not_or]
    obtain ⟨⟨hline, hcarriage⟩, hothers⟩ := ih
    exact ⟨⟨⟨fun h => hfeed h.symm, hline⟩, fun h => hreturn h.symm, hcarriage⟩, hothers⟩

/-! ### The tokens of one line -/

variable {number column : Nat} {text line : List Char} {lines : List (List Char)}
  {token : Token} {tokens : List Token}

/-- **The tokens of a line.** Behind `column` characters of the line the text goes on with blanks
and with words, and each word is a token at the column where it starts. -/
inductive Tiles (number : Nat) : Nat → List Char → List Token → Prop
  | done {column : Nat} : Tiles number column [] []
  | blank {column : Nat} {c : Char} {rest : List Char} {tokens : List Token}
      (hblank : isBlank c = true) (hrest : Tiles number (column + 1) rest tokens) :
      Tiles number column (c :: rest) tokens
  | word {column : Nat} {token : Token} {rest : List Char} {tokens : List Token}
      (hposition : token.position = ⟨number, column + 1⟩) (hend : token.isLineEnd = false)
      (hword : token.lexeme.toList ≠ [])
      (hrest : Tiles number (column + token.lexeme.toList.length) rest tokens) :
      Tiles number column (token.lexeme.toList ++ rest) (token :: tokens)

theorem Token.isLineEnd_ofLexeme (position : Position) (lexeme : String) :
    (ofLexeme position lexeme).isLineEnd = false := by
  unfold ofLexeme isLineEnd TokenKind.ofLexeme
  by_cases hkeyword : Lexeme.isKeyword lexeme = true
  · rw [if_pos hkeyword]; rfl
  · rw [if_neg hkeyword]
    by_cases hnumber : Lexeme.isNumber lexeme = true
    · rw [if_pos hnumber]; rfl
    · rw [if_neg hnumber]
      split <;> rfl

namespace Tiles

/-- A token is a piece of the line, behind the characters that stand before it. -/
theorem found (h : Tiles number column text tokens) : ∀ token ∈ tokens,
    token.isLineEnd = false ∧ token.lexeme.toList ≠ [] ∧
      ∃ offset, token.position = ⟨number, column + offset + 1⟩ ∧
        token.lexeme.toList <+: text.drop offset := by
  induction h with
  | done => simp
  | blank hblank hrest ih =>
    intro token htoken
    obtain ⟨hend, hword, offset, hposition, hprefix⟩ := ih token htoken
    refine ⟨hend, hword, offset + 1, ?_, by simpa using hprefix⟩
    rw [hposition, Nat.add_assoc _ 1, Nat.add_comm 1]
  | @word column first rest tokens hposition hend hword hrest ih =>
    rw [List.forall_mem_cons]
    refine ⟨⟨hend, hword, 0, by simpa using hposition, by simp⟩, ?_⟩
    intro token htoken
    obtain ⟨hend, hword, offset, hposition, hprefix⟩ := ih token htoken
    refine ⟨hend, hword, first.lexeme.toList.length + offset, ?_, ?_⟩
    · rw [hposition, Nat.add_assoc column]
    · simpa [List.drop_append, List.drop_eq_nil_of_le] using hprefix

/-- Each token ends before the next one starts. -/
theorem apart (h : Tiles number column text tokens) :
    tokens.Pairwise fun a b => a.position.line = b.position.line ∧
      a.position.column < a.position.column + a.lexeme.toList.length ∧
      a.position.column + a.lexeme.toList.length ≤ b.position.column := by
  induction h with
  | done => exact .nil
  | blank _ _ ih => exact ih
  | word hposition hend hword hrest ih =>
    rw [List.pairwise_cons]
    refine ⟨fun token htoken => ?_, ih⟩
    have hlength := List.length_pos_iff.2 hword
    obtain ⟨-, -, offset, htokenPosition, -⟩ := hrest.found token htoken
    rw [hposition, htokenPosition]
    refine ⟨rfl, ?_, ?_⟩
    · omega
    · simp only
      omega

/-- A character that is in no token is blank. -/
theorem covers (h : Tiles number column text tokens) {offset : Nat} {c : Char}
    (hc : text[offset]? = some c) :
    isBlank c = true ∨ ∃ token ∈ tokens, token.position.column ≤ column + offset + 1 ∧
      column + offset + 1 < token.position.column + token.lexeme.toList.length := by
  induction h generalizing offset with
  | done => simp at hc
  | @blank column first rest tokens hblank hrest ih =>
    cases offset with
    | zero =>
      obtain rfl : first = c := by simpa using hc
      exact .inl hblank
    | succ offset =>
      have hmore := ih (by simpa using hc)
      rwa [show column + 1 + offset = column + (offset + 1) by omega] at hmore
  | @word column first rest tokens hposition hend hword hrest ih =>
    by_cases hinside : offset < first.lexeme.toList.length
    · refine .inr ⟨first, List.mem_cons_self, ?_⟩
      rw [hposition]
      simp only
      omega
    · -- the character stands behind the word
      rw [List.getElem?_append_right (by omega)] at hc
      obtain hblank | ⟨token, htoken, hcolumns⟩ := ih hc
      · exact .inl hblank
      · refine .inr ⟨token, List.mem_cons_of_mem _ htoken, ?_⟩
        omega

end Tiles

/-! ### Words and marks -/

/-- Whether a word starts with a quote. -/
def Lexeme.startsQuoted (lexeme : String) : Bool := lexeme.toList.head?.any isQuote

/-- Whether the word ends in front of a text: nothing is left, or a blank, a mark or a line break
comes next. -/
def Lexer.endsWord (text : List Char) : Bool :=
  text.head?.all fun c => isBlank c || isPunctuation c

/-- What is cut out as a word: blanks and marks stand in it only behind a quote at its start. -/
structure Lexeme.IsWord (lexeme : String) : Prop where
  ne_nil : lexeme.toList ≠ []
  quoted : ∀ c ∈ lexeme.toList, (isBlank c || isPunctuation c) = true →
    startsQuoted lexeme = true

/-- **A line cut into tokens.** Behind `column` characters it goes on with blanks, with marks, each a
token of its own, and with words, each up to a blank, a mark or the end of the line. -/
inductive Cut (number : Nat) : Nat → List Char → List Token → Prop
  | done {column : Nat} : Cut number column [] []
  | blank {column : Nat} {c : Char} {rest : List Char} {tokens : List Token}
      (hblank : isBlank c = true) (hrest : Cut number (column + 1) rest tokens) :
      Cut number column (c :: rest) tokens
  | mark {column : Nat} {c : Char} {rest : List Char} {tokens : List Token}
      (hmark : isPunctuation c = true) (hrest : Cut number (column + 1) rest tokens) :
      Cut number column (c :: rest)
        (⟨.punctuation, ⟨number, column + 1⟩, .singleton c⟩ :: tokens)
  | word {column : Nat} {lexeme : String} {rest : List Char} {tokens : List Token}
      (hword : Lexeme.IsWord lexeme) (hends : Lexer.endsWord rest = true)
      (hrest : Cut number (column + lexeme.toList.length) rest tokens) :
      Cut number column (lexeme.toList ++ rest) (.ofLexeme ⟨number, column + 1⟩ lexeme :: tokens)

/-- What is cut out of a line tiles it. -/
theorem Cut.tiles (h : Cut number column text tokens) : Tiles number column text tokens := by
  induction h with
  | done => exact .done
  | blank hblank _ ih => exact .blank hblank ih
  | @mark column c rest tokens _ _ ih =>
    have hmark := @Tiles.word number column
      ⟨.punctuation, ⟨number, column + 1⟩, .singleton c⟩ rest tokens
    rw [String.toList_singleton] at hmark
    exact hmark rfl rfl (by simp) ih
  | word hword _ _ ih => exact .word rfl (Token.isLineEnd_ofLexeme _ _) hword.ne_nil ih

namespace Lexer

/-- All tokens of the characters that are left, the word that the end completes among them. -/
def scan (lexer : Lexer) (characters : List (Char × Position)) : List Token :=
  (lexer.feed characters).1 ++ (lexer.feed characters).2.flush.1

theorem scan_append (lexer : Lexer) (first second : List (Char × Position)) :
    lexer.scan (first ++ second) =
      (lexer.feed first).1 ++ (lexer.feed first).2.scan second := by
  rw [scan, scan, feed_append, List.append_assoc]

theorem scan_cons (lexer : Lexer) (c : Char) (position : Position)
    (rest : List (Char × Position)) :
    lexer.scan ((c, position) :: rest) =
      (lexer.step c position).1 ++ (lexer.step c position).2.scan rest := by
  rw [scan, scan, feed, List.append_assoc]

/-- The lexer holds the last characters of a line, those behind `column`: a word so far, which starts
with a quote if a literal is open in it. -/
inductive Holding (number column : Nat) : Lexer → List Char → Prop
  | nothing {comment : Option OpenComment} : Holding number column ⟨none, comment⟩ []
  | word {text : String} {literal : Option OpenLiteral} {comment : Option OpenComment}
      (hword : Lexeme.IsWord text)
      (hliteral : literal.isSome = true → Lexeme.startsQuoted text = true) :
      Holding number column ⟨some ⟨⟨number, column + 1⟩, text, literal⟩, comment⟩ text.toList

/-- The word that is held is the next token. -/
theorem Holding.cut_flush {lexer : Lexer} {held : List Char}
    (h : lexer.Holding number column held) (hends : endsWord text = true)
    (hrest : Cut number (column + held.length) text tokens) :
    Cut number column (held ++ text) (lexer.flush.1 ++ tokens) := by
  cases h with
  | nothing => exact hrest
  | word hword _ => exact .word hword hends hrest

theorem word_flush (lexer : Lexer) : lexer.flush.2.word = none := by
  unfold flush
  split
  · assumption
  · rfl

theorem flush_eq (lexer : Lexer) : lexer.flush.2 = ⟨none, lexer.flush.2.comment⟩ := by
  rw [← word_flush lexer]

/-- A character that does not end the word that is held goes on it. -/
theorem Holding.extend {lexer : Lexer} {held : List Char} (h : lexer.Holding number column held)
    {c : Char} (hc : lexer.inLiteral = true ∨ (isBlank c || isPunctuation c) = false) :
    (lexer.extend c ⟨number, column + held.length + 1⟩).Holding number column (held ++ [c]) := by
  cases h with
  | @nothing comment =>
    -- outside literals the character is neither blank nor a mark, and a quote may open a literal
    have hplain : (isBlank c || isPunctuation c) = false := hc.resolve_left Bool.false_ne_true
    have hword : Lexeme.IsWord (.singleton c) := by
      refine ⟨by simp, fun first hfirst hends => ?_⟩
      obtain rfl : first = c := by simpa using hfirst
      rw [hplain] at hends
      cases hends
    have hheld := @Holding.word number column (.singleton c)
      (if Lexeme.isQuote c && comment.isNone then some { quote := c } else none) comment hword
    rw [String.toList_singleton] at hheld
    refine hheld fun hopen => ?_
    rw [Option.isSome_ite, Bool.and_eq_true] at hopen
    simp [Lexeme.startsQuoted, hopen.1]
  | @word text literal comment hword hliteral =>
    have hstarts : Lexeme.startsQuoted (text.push c) = Lexeme.startsQuoted text := by
      obtain ⟨first, rest, htext⟩ := List.exists_cons_of_ne_nil hword.ne_nil
      simp [Lexeme.startsQuoted, htext]
    have hmore : Lexeme.IsWord (text.push c) := by
      refine ⟨by simp, fun last hlast hends => ?_⟩
      rw [hstarts]
      rw [String.toList_push, List.mem_append, List.mem_singleton] at hlast
      rcases hlast with hlast | rfl
      · exact hword.quoted last hlast hends
      · exact hliteral (hc.resolve_right (by rw [hends]; decide))
    have hheld := @Holding.word number column (text.push c) (literal.bind (·.after c)) comment hmore
    rw [String.toList_push] at hheld
    refine hheld fun hopen => ?_
    rw [hstarts]
    refine hliteral ?_
    cases literal with
    | none => cases hopen
    | some literal => rfl

/-- **The tokens of a line are cut out of it**, those of the word that is held included. -/
theorem cut_scan {lexer : Lexer} {held : List Char} (h : lexer.Holding number column held)
    (htext : '\n' ∉ text) :
    Cut number column (held ++ text)
      (lexer.scan (Position.along ⟨number, column + held.length⟩ text)) := by
  induction text generalizing lexer column held with
  | nil => simpa [scan, Position.along, feed] using h.cut_flush rfl .done
  | cons c rest ih =>
    rw [List.mem_cons, not_or] at htext
    have hc : c ≠ '\n' := Ne.symm htext.1
    have hafter : Position.after ⟨number, column + held.length⟩ c =
        ⟨number, column + held.length + 1⟩ := by simp [Position.after, hc]
    -- a character that goes on the word stays in what is held
    have hextend : lexer.inLiteral = true ∨ (isBlank c || isPunctuation c) = false →
        Cut number column (held ++ c :: rest)
          ((lexer.extend c ⟨number, column + held.length + 1⟩).scan
            (Position.along ⟨number, column + held.length + 1⟩ rest)) := by
      intro hgoes
      have hmore := ih (h.extend hgoes) htext.2
      rw [List.length_append, List.length_singleton, ← Nat.add_assoc] at hmore
      simpa using hmore
    -- after any other nothing is held
    have hnothing : Cut number (column + held.length + 1) rest
        (lexer.flush.2.scan (Position.along ⟨number, column + held.length + 1⟩ rest)) := by
      rw [flush_eq]
      exact ih .nothing htext.2
    rw [Position.along, hafter, scan_cons, step, if_neg hc]
    split
    · rename_i hliteral
      exact hextend (.inl hliteral)
    · split
      · rename_i hblank
        exact h.cut_flush (by simp [endsWord, hblank]) (.blank hblank hnothing)
      · split
        · rename_i hmark
          rw [List.append_assoc]
          exact h.cut_flush (by simp [endsWord, hmark]) (.mark hmark hnothing)
        · rename_i hblank hmark
          exact hextend (.inr (by simp [hblank, hmark]))

end Lexer

/-! ### The tokens of all lines -/

/-- **The tokens of several lines**: those of each line, and a line break after each but the last,
at the start of the next line. -/
inductive TilesLines : Nat → List (List Char) → List Token → Prop
  | last {number : Nat} {line : List Char} {tokens : List Token}
      (hline : Tiles number 0 line tokens) : TilesLines number [line] tokens
  | more {number : Nat} {line : List Char} {lines : List (List Char)} {tokens others : List Token}
      (hline : Tiles number 0 line tokens) (hlines : TilesLines (number + 1) lines others) :
      TilesLines number (line :: lines) (tokens ++ .lineBreak ⟨number + 1, 0⟩ :: others)

/-- **Several lines cut into tokens**, with a line break after each but the last. -/
inductive CutLines : Nat → List (List Char) → List Token → Prop
  | last {number : Nat} {line : List Char} {tokens : List Token}
      (hline : Cut number 0 line tokens) : CutLines number [line] tokens
  | more {number : Nat} {line : List Char} {lines : List (List Char)} {tokens others : List Token}
      (hline : Cut number 0 line tokens) (hlines : CutLines (number + 1) lines others) :
      CutLines number (line :: lines) (tokens ++ .lineBreak ⟨number + 1, 0⟩ :: others)

theorem CutLines.tilesLines (h : CutLines number lines tokens) :
    TilesLines number lines tokens := by
  induction h with
  | last hline => exact .last hline.tiles
  | more hline _ ih => exact .more hline.tiles ih

theorem Lexer.scan_break (lexer : Lexer) (characters rest : List (Char × Position))
    (position : Position) :
    ∃ comment, lexer.scan (characters ++ ('\n', position) :: rest) =
      lexer.scan characters ++ .lineBreak position :: scan ⟨none, comment⟩ rest := by
  refine ⟨OpenComment.afterLine (lexer.feed characters).2.flush.2.comment, ?_⟩
  rw [scan_append, scan_cons, step, if_pos rfl]
  simp [scan, word_flush]

theorem Lexer.cutLines_scan (h : ∀ line ∈ lines, '\n' ∉ line) (hlines : lines ≠ [])
    (comment : Option OpenComment) :
    CutLines number lines
      (scan ⟨none, comment⟩ (Position.along ⟨number, 0⟩ (['\n'].intercalate lines))) := by
  induction lines generalizing number comment with
  | nil => exact absurd rfl hlines
  | cons line others ih =>
    rw [List.forall_mem_cons] at h
    have hline := @cut_scan number 0 line ⟨none, comment⟩ [] .nothing h.1
    cases others with
    | nil =>
      rw [List.intercalate_singleton]
      exact .last hline
    | cons next others =>
      rw [List.intercalate_cons_cons, List.append_assoc, Position.along_append,
        Position.foldl_after h.1]
      obtain ⟨comment', hscan⟩ := scan_break ⟨none, comment⟩ (Position.along ⟨number, 0⟩ line)
        (Position.along ⟨number + 1, 0⟩ (['\n'].intercalate (next :: others))) ⟨number + 1, 0⟩
      have hbreak : Position.along ⟨number, 0 + line.length⟩
          (['\n'] ++ ['\n'].intercalate (next :: others)) = ('\n', ⟨number + 1, 0⟩) ::
            Position.along ⟨number + 1, 0⟩ (['\n'].intercalate (next :: others)) := rfl
      rw [hbreak, hscan]
      exact .more hline (ih h.2 (by simp) comment')

/-- The lines of a text are cut into its tokens. -/
theorem cutLines_tokenize (source : String) :
    CutLines 1 (textLines source.toList) (tokenize source) := by
  have hcharacters := Reader.characters_eq source.toList .start
  rw [unifyBreaks_eq] at hcharacters
  have hcuts := @Lexer.cutLines_scan 1 _ (fun line hline => (not_mem_textLines _ line hline).1)
    (textLines_ne_nil source.toList) none
  unfold Position.start at hcharacters
  rw [← hcharacters] at hcuts
  exact hcuts

theorem tilesLines_tokenize (source : String) :
    TilesLines 1 (textLines source.toList) (tokenize source) :=
  (cutLines_tokenize source).tilesLines

/-! ### What a tiling means -/

/-- A place comes before another in the order of a text. -/
def Position.Before (a b : Position) : Prop :=
  a.line < b.line ∨ a.line = b.line ∧ a.column < b.column

/-- A token stands over a place: the place is in its line and among its columns. -/
def Token.Covers (token : Token) (place : Position) : Prop :=
  token.isLineEnd = false ∧ token.position.line = place.line ∧
    token.position.column ≤ place.column ∧
    place.column < token.position.column + token.lexeme.toList.length

/-- **Tokens tile lines** that are numbered from `number` on; columns are counted from one. -/
structure Tiling (number : Nat) (lines : List (List Char)) (tokens : List Token) : Prop where
  /-- Tokens come in the order of the text. -/
  ordered : tokens.Pairwise fun a b => a.position.Before b.position
  /-- A token is the piece of its line that starts at its column. -/
  found : ∀ token ∈ tokens, token.isLineEnd = false →
    ∃ row offset chars, token.position = ⟨number + row, offset + 1⟩ ∧ lines[row]? = some chars ∧
      token.lexeme.toList ≠ [] ∧ token.lexeme.toList <+: chars.drop offset
  /-- No place is under two tokens. -/
  apart : tokens.Pairwise fun a b => ∀ place, a.Covers place → ¬ b.Covers place
  /-- What is under no token is blank. -/
  covered : ∀ row offset chars c, lines[row]? = some chars → chars[offset]? = some c →
    isBlank c = true ∨ ∃ token ∈ tokens, token.Covers ⟨number + row, offset + 1⟩
  /-- Each line but the last has one line break behind it, at the start of the next line. -/
  breaks : tokens.filter Token.isLineEnd =
    (List.range (lines.length - 1)).map fun row => .lineBreak ⟨number + row + 1, 0⟩

/-- The tokens of one line tile it. -/
theorem Tiles.tiling (h : Tiles number 0 line tokens) : Tiling number [line] tokens where
  ordered := by
    refine h.apart.imp ?_
    rintro a b ⟨hline, hlength, hcolumn⟩
    exact .inr ⟨hline, Nat.lt_of_lt_of_le hlength hcolumn⟩
  found := by
    intro token htoken _
    obtain ⟨-, hword, offset, hposition, hprefix⟩ := h.found token htoken
    exact ⟨0, offset, line, by simpa using hposition, rfl, hword, hprefix⟩
  apart := by
    refine h.apart.imp ?_
    rintro a b ⟨-, -, hcolumn⟩ place ⟨-, -, -, ha⟩ ⟨-, -, hb, -⟩
    omega
  covered := by
    intro row offset line' c hline hc
    obtain ⟨rfl, rfl⟩ : row = 0 ∧ line = line' := by
      cases row with
      | zero => simpa using hline
      | succ row => simp at hline
    refine (h.covers hc).imp_right ?_
    rintro ⟨token, htoken, hstart, hstop⟩
    obtain ⟨hend, -, place, hposition, -⟩ := h.found token htoken
    refine ⟨token, htoken, hend, by rw [hposition]; rfl, ?_, ?_⟩ <;> simp only <;> omega
  breaks := by
    rw [List.filter_eq_nil_iff.2]
    · rfl
    · intro token htoken
      simp [(h.found token htoken).1]

/-- All tokens stand behind the start of the first line. -/
theorem Tiling.start_before (h : Tiling number lines tokens) (htoken : token ∈ tokens) :
    Position.Before ⟨number, 0⟩ token.position := by
  cases hend : token.isLineEnd with
  | false =>
    obtain ⟨row, offset, -, hposition, -⟩ := h.found token htoken hend
    rw [hposition]
    unfold Position.Before
    simp only
    omega
  | true =>
    have hfilter : token ∈ tokens.filter Token.isLineEnd := List.mem_filter.2 ⟨htoken, hend⟩
    rw [h.breaks] at hfilter
    obtain ⟨row, -, rfl⟩ := List.mem_map.1 hfilter
    refine .inl ?_
    simp only [Token.lineBreak]
    omega

/-- What stands in a line comes before the next line. -/
theorem Tiling.line_lt {others : List Token} {a b : Token} (hline : Tiles number 0 line tokens)
    (hlines : Tiling (number + 1) lines others) (ha : a ∈ tokens)
    (hb : b ∈ Token.lineBreak ⟨number + 1, 0⟩ :: others) : a.position.line < b.position.line := by
  obtain ⟨-, -, offset, hposition, -⟩ := hline.found a ha
  have hle : number + 1 ≤ b.position.line := by
    rcases List.mem_cons.1 hb with rfl | hb
    · exact Nat.le_refl _
    · rcases hlines.start_before hb with hlt | ⟨heq, -⟩
      · exact Nat.le_of_lt hlt
      · exact Nat.le_of_eq heq
  rw [hposition]
  exact hle

/-- One more line in front. -/
theorem Tiling.cons {others : List Token} (hline : Tiles number 0 line tokens)
    (hlines : Tiling (number + 1) lines others) (hne : lines ≠ []) :
    Tiling number (line :: lines) (tokens ++ .lineBreak ⟨number + 1, 0⟩ :: others) where
  ordered := by
    rw [List.pairwise_append, List.pairwise_cons]
    refine ⟨hline.tiling.ordered, ⟨fun b hb => hlines.start_before hb, hlines.ordered⟩, ?_⟩
    intro a ha b hb
    exact .inl (hlines.line_lt hline ha hb)
  found := by
    intro token htoken hend
    rw [List.mem_append, List.mem_cons] at htoken
    rcases htoken with htoken | rfl | htoken
    · obtain ⟨-, hword, offset, hposition, hprefix⟩ := hline.found token htoken
      exact ⟨0, offset, line, by simpa using hposition, rfl, hword, hprefix⟩
    · cases hend
    · obtain ⟨row, offset, found, hposition, hfound⟩ := hlines.found token htoken hend
      refine ⟨row + 1, offset, found, ?_, hfound⟩
      rw [hposition, Nat.add_assoc, Nat.add_comm 1]
  apart := by
    rw [List.pairwise_append, List.pairwise_cons]
    refine ⟨hline.tiling.apart, ⟨?_, hlines.apart⟩, ?_⟩
    · rintro b hb place ⟨hend, -⟩
      cases hend
    · rintro a ha b hb place ⟨-, haline, -⟩ ⟨-, hbline, -⟩
      have hlt := hlines.line_lt hline ha hb
      omega
  covered := by
    intro row offset found c hfound hc
    cases row with
    | zero =>
      refine (hline.tiling.covered 0 offset found c hfound hc).imp_right ?_
      rintro ⟨token, htoken, hcovers⟩
      exact ⟨token, List.mem_append_left _ htoken, hcovers⟩
    | succ row =>
      refine (hlines.covered row offset found c hfound hc).imp_right ?_
      rintro ⟨token, htoken, hcovers⟩
      refine ⟨token, List.mem_append_right _ (List.mem_cons_of_mem _ htoken), ?_⟩
      rwa [show number + (row + 1) = number + 1 + row by omega]
  breaks := by
    obtain ⟨count, hcount⟩ : ∃ count, lines.length = count + 1 :=
      Nat.exists_eq_succ_of_ne_zero (by simpa using hne)
    have hbreak : (Token.lineBreak ⟨number + 1, 0⟩).isLineEnd = true := rfl
    have hnone := hline.tiling.breaks
    have hmore := hlines.breaks
    rw [List.length_singleton] at hnone
    rw [hcount] at hmore
    rw [List.filter_append, hnone, List.filter_cons_of_pos hbreak, hmore, List.length_cons, hcount]
    simp only [Nat.add_sub_cancel, Nat.sub_self, List.range_zero, List.map_nil, List.nil_append,
      List.range_succ_eq_map, List.map_cons, List.map_map, Nat.add_zero, List.cons.injEq, true_and]
    refine List.map_congr_left fun row _ => ?_
    simp only [Function.comp_apply, Nat.succ_eq_add_one, Token.lineBreak]
    rw [Nat.add_assoc number 1, Nat.add_comm 1]

theorem TilesLines.tiling (h : TilesLines number lines tokens) : Tiling number lines tokens := by
  induction h with
  | last hline => exact hline.tiling
  | more hline hlines ih =>
    refine ih.cons hline ?_
    cases hlines <;> simp

/-- **The tokens of a text tile its lines.** Nothing but blanks is lost, nothing is read twice, and
every token and every line break is reported at its place. -/
theorem tiling_tokenize (source : String) :
    Tiling 1 (textLines source.toList) (tokenize source) :=
  (tilesLines_tokenize source).tiling

end ProtoSchema
