import ProtoSchema.Proofs.Lexing
import ProtoSchema.Proofs.Literals

/-!
# Written words are read back

The words of a line come out of the lexer as they went into the text. The lexer may still hold the
last of them, so a piece of text is described by what the lexer holds before it, by what it adds,
and by what the lexer holds after it; such pieces can be put one after the other.

* `Legible`: a word that can be written, a mark, a quoted literal or a plain word.
* `Scans`: what a piece of text adds, wherever it stands.
* `shapes_tokenize`: lines of legible words give tokens of these words.
-/

namespace ProtoSchema

/-! ### Words and tokens -/

/-- A character that a blank, a mark or a line break does not end. -/
def isPlainChar (c : Char) : Bool := !isBlank c && !isPunctuation c

/-- A word that is neither quoted nor a comment. -/
def Lexeme.isPlain (word : String) : Bool :=
  !word.toList.isEmpty && word.toList.all isPlainChar && !word.toList.head?.any isQuote &&
    !opensLineComment word && !opensBlockComment word

/-- A word that can be written in a text. -/
inductive Legible : String → Prop
  | mark (sign : Punctuation) : Legible sign.text
  | quoted (text : String) : Legible (quote text)
  | plain {word : String} (h : Lexeme.isPlain word = true) : Legible word

/-- A token without its place. -/
def Token.shape (token : Token) : TokenKind × String := (token.kind, token.lexeme)

/-- The token of a word without its place. -/
def wordShape (word : String) : TokenKind × String := (.ofLexeme word, word)

/-- The tokens of a line without their places. -/
def lineShapes (words : List String) : List (TokenKind × String) :=
  words.map wordShape ++ [(.lineEnd, "\n")]

/-! ### Words inside the lexer -/

namespace Lexer

variable {start : Position} {text : String} {characters : List (Char × Position)}

theorem feed_cons {lexer after : Lexer} {c : Char} {position : Position} {tokens : List Token}
    (h : lexer.step c position = (tokens, after)) :
    lexer.feed ((c, position) :: characters) =
      (tokens ++ (after.feed characters).1, (after.feed characters).2) := by
  rw [feed, h]

theorem ne_break_of_isPlainChar {c : Char} (h : isPlainChar c = true) : c ≠ '\n' := by
  rintro rfl
  exact absurd h (by decide)

/-- Plain characters go on a word. -/
theorem feed_inside (h : ∀ c ∈ characters.map Prod.fst, isPlainChar c = true) :
    feed ⟨some ⟨start, text, none⟩, none⟩ characters =
      ([], ⟨some ⟨start, text ++ .ofList (characters.map Prod.fst), none⟩, none⟩) := by
  induction characters generalizing text with
  | nil => simp [feed]
  | cons character rest ih =>
    obtain ⟨c, position⟩ := character
    have hc := h c (by simp)
    have hbreak := ne_break_of_isPlainChar hc
    simp only [isPlainChar, Bool.and_eq_true, Bool.not_eq_true'] at hc
    have hstep : step ⟨some ⟨start, text, none⟩, none⟩ c position =
        ([], ⟨some ⟨start, text.push c, none⟩, none⟩) := by
      simp [step, hbreak, inLiteral, hc, extend, PendingWord.push]
    rw [feed_cons hstep, ih (fun c hc => h c (by simp [hc]))]
    simp [← String.toList_inj]

/-- A plain word is held when its last character is read. -/
theorem feed_plain {word : String} (h : Lexeme.isPlain word = true)
    (hword : characters.map Prod.fst = word.toList) :
    ∃ start, feed ⟨none, none⟩ characters = ([], ⟨some ⟨start, word, none⟩, none⟩) := by
  simp only [Lexeme.isPlain, Bool.and_eq_true, Bool.not_eq_true', List.all_eq_true,
    List.isEmpty_eq_false_iff] at h
  obtain ⟨⟨⟨⟨hempty, hplain⟩, hquote⟩, -⟩, -⟩ := h
  rw [← hword] at hempty hplain hquote
  cases characters with
  | nil => exact absurd rfl hempty
  | cons character rest =>
    obtain ⟨c, position⟩ := character
    have hc := hplain c (by simp)
    have hbreak := ne_break_of_isPlainChar hc
    simp only [isPlainChar, Bool.and_eq_true, Bool.not_eq_true'] at hc
    have hopen : Lexeme.isQuote c = false := by simpa using hquote
    have hstep : step ⟨none, none⟩ c position =
        ([], ⟨some ⟨position, .singleton c, none⟩, none⟩) := by
      simp [step, hbreak, inLiteral, hc, extend, hopen]
    have hrest : ∀ c ∈ rest.map Prod.fst, isPlainChar c = true := by
      intro c hc
      exact hplain c (List.mem_cons_of_mem _ hc)
    refine ⟨position, ?_⟩
    rw [feed_cons hstep, feed_inside hrest]
    simp [← String.toList_inj, ← hword]

/-- Characters that leave a literal open go on its word, line breaks apart. -/
theorem feed_literal {literal last : OpenLiteral} (hbreak : '\n' ∉ characters.map Prod.fst)
    (h : (characters.map Prod.fst).foldlM OpenLiteral.after literal = some last) :
    feed ⟨some ⟨start, text, some literal⟩, none⟩ characters =
      ([], ⟨some ⟨start, text ++ .ofList (characters.map Prod.fst), some last⟩, none⟩) := by
  induction characters generalizing text literal with
  | nil =>
    obtain rfl : literal = last := by simpa using h
    simp [feed]
  | cons character rest ih =>
    obtain ⟨c, position⟩ := character
    rw [List.map_cons, List.mem_cons, not_or] at hbreak
    have hc : c ≠ '\n' := Ne.symm hbreak.1
    obtain ⟨next, hnext, hlast⟩ : ∃ next, literal.after c = some next ∧
        (rest.map Prod.fst).foldlM OpenLiteral.after next = some last := by
      simpa [Option.bind_eq_some_iff] using h
    have hstep : step ⟨some ⟨start, text, some literal⟩, none⟩ c position =
        ([], ⟨some ⟨start, text.push c, some next⟩, none⟩) := by
      simp [step, hc, inLiteral, extend, PendingWord.push, hnext]
    rw [feed_cons hstep, ih hbreak.2 hlast]
    simp [← String.toList_inj]

/-- The literal that a quote opens. -/
abbrev opened (q : Char) : OpenLiteral := { quote := q }

section Quotes

open Lexeme

variable {q : Char}

/-- An escaped character leaves the literal as it was, and breaks no line. -/
theorem after_escapeIn (hq : isQuote q = true) (c : Char) :
    (escapeIn q c).foldlM OpenLiteral.after (opened q) = some (opened q) ∧
      '\n' ∉ escapeIn q c ∧ '\r' ∉ escapeIn q c := by
  have hline : q ≠ '\n' := ne_of_isQuote hq (by decide)
  have hcarriage : q ≠ '\r' := ne_of_isQuote hq (by decide)
  unfold escapeIn
  split
  · simp [OpenLiteral.after]
  split
  · simp [OpenLiteral.after, hline.symm, hcarriage.symm]
  split
  · simp [OpenLiteral.after]
  split
  · simp [OpenLiteral.after]
  · rename_i hslash hquote hfeed hreturn
    simp [OpenLiteral.after, hslash, hquote, Ne.symm hfeed, Ne.symm hreturn]

theorem after_escapes (hq : isQuote q = true) (text : List Char) :
    (text.flatMap (escapeIn q)).foldlM OpenLiteral.after (opened q) = some (opened q) ∧
      '\n' ∉ text.flatMap (escapeIn q) ∧ '\r' ∉ text.flatMap (escapeIn q) := by
  induction text with
  | nil => simp
  | cons c rest ih =>
    have hc := after_escapeIn hq c
    rw [List.flatMap_cons, List.foldlM_append, hc.1, List.mem_append, List.mem_append, not_or,
      not_or]
    exact ⟨ih.1, ⟨hc.2.1, ih.2.1⟩, hc.2.2, ih.2.2⟩

/-- A body that leaves its literal open is held with its quotes when the closing one is read. -/
theorem feed_enclose {body : List Char} (hq : isQuote q = true) (hbreak : '\n' ∉ body)
    (hbody : body.foldlM OpenLiteral.after (opened q) = some (opened q))
    (h : characters.map Prod.fst = body ++ [q]) :
    feed ⟨none, none⟩ ((q, start) :: characters) =
      ([], ⟨some ⟨start, enclose q body, none⟩, none⟩) := by
  obtain ⟨inside, closer, rfl, hinside, hcloser⟩ := List.map_eq_append_iff.1 h
  obtain ⟨position, rfl⟩ : ∃ position, closer = [(q, position)] := by
    obtain ⟨⟨c, position⟩, rfl, hc⟩ := List.map_eq_singleton_iff.1 hcloser
    obtain rfl : c = q := hc
    exact ⟨position, rfl⟩
  -- what is neither a blank nor a mark starts a word, and a quote opens a literal
  have hopen : step ⟨none, none⟩ q start =
      ([], ⟨some ⟨start, .singleton q, some (opened q)⟩, none⟩) := by
    simp only [isQuote, Bool.or_eq_true, beq_iff_eq] at hq
    rcases hq with rfl | rfl
    · rfl
    · rfl
  have hclose : step ⟨some ⟨start, .singleton q ++ .ofList body, some (opened q)⟩, none⟩ q
      position = ([], ⟨some ⟨start, enclose q body, none⟩, none⟩) := by
    have hline : q ≠ '\n' := ne_of_isQuote hq (by decide)
    have hslash : q ≠ '\\' := ne_of_isQuote hq (by decide)
    simp [step, inLiteral, extend, PendingWord.push, OpenLiteral.after, hline, hslash, enclose,
      ← String.toList_inj]
  rw [← hinside] at hbreak hbody
  rw [feed_cons hopen, feed_append, feed_literal hbreak hbody, hinside, feed_cons hclose]
  rfl

/-- A literal opens no comment. -/
theorem afterWord_enclose (hq : isQuote q = true) (body : List Char) :
    OpenComment.afterWord none (enclose q body) = none := by
  have hslash : q ≠ '/' := ne_of_isQuote hq (by decide)
  simp [OpenComment.afterWord, opensLineComment, opensBlockComment, enclose, List.isPrefixOf,
    hslash.symm]

/-- A quoted text is held when its closing quote is read. -/
theorem feed_quote {content : String} (h : characters.map Prod.fst = (quote content).toList) :
    ∃ start, feed ⟨none, none⟩ characters = ([], ⟨some ⟨start, quote content, none⟩, none⟩) := by
  obtain ⟨hbody, hbreak, -⟩ := after_escapes (q := '\x22') (by decide) content.toList
  rw [quote, String.toList_ofList, List.map_eq_cons_iff] at h
  obtain ⟨⟨_, start⟩, others, rfl, rfl, hothers⟩ := h
  exact ⟨start, feed_enclose (by decide) hbreak hbody hothers⟩

end Quotes

/-- The lexer is outside comments and holds a word that ends with the next gap, or nothing. -/
inductive Holds : Lexer → Option String → Prop
  | nothing : Holds ⟨none, none⟩ none
  | word {start : Position} {text : String} (h : OpenComment.afterWord none text = none) :
      Holds ⟨some ⟨start, text, none⟩, none⟩ (some text)

theorem Holds.flush {lexer : Lexer} {held : Option String} (h : lexer.Holds held) :
    lexer.flush.1.map Token.shape = held.toList.map wordShape ∧ lexer.flush.2 = ⟨none, none⟩ := by
  cases h with
  | nothing => exact ⟨rfl, rfl⟩
  | word hclosed => exact ⟨rfl, by simp [Lexer.flush, hclosed]⟩

theorem Holds.inLiteral {lexer : Lexer} {held : Option String} (h : lexer.Holds held) :
    lexer.inLiteral = false := by
  cases h <;> rfl

end Lexer

/-! ### Pieces of text -/

/-- What a piece of text adds to the tokens. A word that the lexer still holds counts as added. -/
structure Scans (held : Option String) (text : List Char) (shapes : List (TokenKind × String))
    (after : Option String) : Prop where
  oneBreak : '\r' ∉ text
  holds : ∀ (lexer : Lexer) (characters : List (Char × Position)), lexer.Holds held →
    characters.map Prod.fst = text → (lexer.feed characters).2.Holds after
  adds : ∀ (lexer : Lexer) (characters : List (Char × Position)), lexer.Holds held →
    characters.map Prod.fst = text →
    (lexer.feed characters).1.map Token.shape ++ after.toList.map wordShape =
      held.toList.map wordShape ++ shapes

namespace Scans

variable {held after last : Option String} {text more : List Char}
  {shapes others : List (TokenKind × String)}

theorem nil : Scans held [] [] held where
  oneBreak := by simp
  holds lexer characters hlexer hcharacters := by
    rw [List.map_eq_nil_iff] at hcharacters
    rwa [hcharacters]
  adds lexer characters _ hcharacters := by
    rw [List.map_eq_nil_iff] at hcharacters
    simp [hcharacters, Lexer.feed]

theorem append (h : Scans held text shapes after) (hmore : Scans after more others last) :
    Scans held (text ++ more) (shapes ++ others) last where
  oneBreak := by
    rw [List.mem_append, not_or]
    exact ⟨h.oneBreak, hmore.oneBreak⟩
  holds lexer characters hlexer hcharacters := by
    obtain ⟨first, second, rfl, hfirst, hsecond⟩ := List.map_eq_append_iff.1 hcharacters
    rw [Lexer.feed_append]
    exact hmore.holds _ _ (h.holds _ _ hlexer hfirst) hsecond
  adds lexer characters hlexer hcharacters := by
    obtain ⟨first, second, rfl, hfirst, hsecond⟩ := List.map_eq_append_iff.1 hcharacters
    rw [Lexer.feed_append, List.map_append, List.append_assoc,
      hmore.adds _ _ (h.holds _ _ hlexer hfirst) hsecond, ← List.append_assoc,
      h.adds _ _ hlexer hfirst, List.append_assoc]

/-- A character that ends the word before it. -/
theorem single {c : Char} (hreturn : c ≠ '\r')
    (h : ∀ (lexer : Lexer) (position : Position), lexer.Holds held →
      ∃ tokens : List Token, tokens.map Token.shape = shapes ∧
      lexer.step c position = (lexer.flush.1 ++ tokens, ⟨none, none⟩)) :
    Scans held [c] shapes none := by
  have hstep : ∀ (lexer : Lexer) (characters : List (Char × Position)), lexer.Holds held →
      characters.map Prod.fst = [c] → ∃ tokens : List Token, tokens.map Token.shape = shapes ∧
        lexer.feed characters = (lexer.flush.1 ++ tokens, ⟨none, none⟩) := by
    intro lexer characters hlexer hcharacters
    obtain ⟨⟨_, position⟩, rfl, rfl⟩ : ∃ character, characters = [character] ∧ character.1 = c := by
      simpa using hcharacters
    obtain ⟨tokens, htokens, hone⟩ := h lexer position hlexer
    refine ⟨tokens, htokens, ?_⟩
    rw [Lexer.feed_cons hone]
    simp [Lexer.feed]
  refine ⟨by simpa using hreturn.symm, ?_, ?_⟩
  · intro lexer characters hlexer hcharacters
    obtain ⟨tokens, -, hfeed⟩ := hstep lexer characters hlexer hcharacters
    rw [hfeed]
    exact .nothing
  · intro lexer characters hlexer hcharacters
    obtain ⟨tokens, htokens, hfeed⟩ := hstep lexer characters hlexer hcharacters
    rw [hfeed, List.map_append, hlexer.flush.1, htokens]
    simp

theorem blank : Scans held [' '] [] none := by
  refine single (by decide) ?_
  intro lexer position hlexer
  refine ⟨[], rfl, ?_⟩
  rw [List.append_nil, ← hlexer.flush.2]
  simp [Lexer.step, hlexer.inLiteral, show isBlank ' ' = true by decide]

theorem lineBreak : Scans held ['\n'] [(.lineEnd, "\n")] none := by
  refine single (by decide) ?_
  intro lexer position hlexer
  refine ⟨[.lineBreak position], rfl, ?_⟩
  simp [Lexer.step, hlexer.flush.2, OpenComment.afterLine]

theorem mark (sign : Punctuation) : Scans held sign.text.toList [wordShape sign.text] none := by
  have hblank : isBlank sign.char = false := by cases sign <;> decide
  have hmark : isPunctuation sign.char = true := (isPunctuation_iff _).2 ⟨sign, rfl⟩
  have hbreak : sign.char ≠ '\n' := by cases sign <;> decide
  rw [sign.text_eq, String.toList_singleton]
  refine single (by cases sign <;> decide) ?_
  intro lexer position hlexer
  refine ⟨[⟨.punctuation, position, .singleton sign.char⟩], ?_, ?_⟩
  · rw [wordShape, TokenKind.ofLexeme_singleton hmark]
    rfl
  · simp [Lexer.step, hbreak, hlexer.inLiteral, hblank, hmark, hlexer.flush.2]

/-- A word that the lexer goes on holding, when it held nothing before. -/
theorem pending {word : String} (hclosed : OpenComment.afterWord none word = none)
    (hreturn : '\r' ∉ word.toList)
    (h : ∀ characters : List (Char × Position), characters.map Prod.fst = word.toList →
      ∃ start, Lexer.feed ⟨none, none⟩ characters = ([], ⟨some ⟨start, word, none⟩, none⟩)) :
    Scans none word.toList [wordShape word] (some word) where
  oneBreak := hreturn
  holds lexer characters hlexer hcharacters := by
    obtain ⟨start, hfeed⟩ := h characters hcharacters
    cases hlexer
    rw [hfeed]
    exact .word hclosed
  adds lexer characters hlexer hcharacters := by
    obtain ⟨start, hfeed⟩ := h characters hcharacters
    cases hlexer
    rw [hfeed]
    rfl

theorem plain {word : String} (h : Lexeme.isPlain word = true) :
    Scans none word.toList [wordShape word] (some word) := by
  refine pending ?_ ?_ fun characters hcharacters => Lexer.feed_plain h hcharacters
  · simp only [Lexeme.isPlain, Bool.and_eq_true, Bool.not_eq_true'] at h
    simp [OpenComment.afterWord, h]
  · simp only [Lexeme.isPlain, Bool.and_eq_true, List.all_eq_true] at h
    intro hmem
    exact absurd (h.1.1.1.2 _ hmem) (by decide)

theorem quoted (content : String) :
    Scans none (quote content).toList [wordShape (quote content)] (some (quote content)) := by
  refine pending (Lexer.afterWord_enclose (by decide) _) ?_
    fun characters hcharacters => Lexer.feed_quote hcharacters
  · rw [quote, String.toList_ofList]
    simp only [List.mem_cons, List.mem_append, List.not_mem_nil, not_or]
    exact ⟨by decide, (Lexer.after_escapes (by decide) content.toList).2.2, by decide, not_false⟩

end Scans

/-- What the lexer holds after a word: a mark is never held. -/
def heldAfter (word : String) : Option String :=
  if Lexeme.isMark word then none else some word

theorem heldAfter_mark (sign : Punctuation) : heldAfter sign.text = none := by
  cases sign <;> decide

theorem Lexeme.isMark_quote (text : String) : isMark (quote text) = false := by
  unfold isMark quote
  rw [String.toList_ofList]
  cases htext : text.toList.flatMap escape <;> simp

theorem Lexeme.isMark_of_isPlain {word : String} (h : isPlain word = true) :
    isMark word = false := by
  simp only [isPlain, Bool.and_eq_true, List.all_eq_true] at h
  unfold isMark
  split
  · rename_i c hword
    have hc := h.1.1.1.2 c (by simp [hword])
    simp only [isPlainChar, Bool.and_eq_true, Bool.not_eq_true'] at hc
    exact hc.2
  · rfl

/-- A legible word after which the lexer holds what it should. -/
theorem Legible.scans {word : String} (h : Legible word) :
    Scans none word.toList [wordShape word] (heldAfter word) := by
  cases h with
  | mark sign =>
    rw [heldAfter_mark]
    exact .mark sign
  | quoted text =>
    rw [heldAfter, Lexeme.isMark_quote]
    exact .quoted text
  | plain hplain =>
    rw [heldAfter, Lexeme.isMark_of_isPlain hplain]
    exact .plain hplain

/-- A word that stands close to the one before it: one of them is a mark. -/
theorem mark_of_tight {before word : String} (h : tight before word = true) :
    (∃ sign : Punctuation, before = sign.text) ∨ ∃ sign : Punctuation, word = sign.text := by
  simp only [tight, Bool.or_eq_true, Bool.and_eq_true, List.contains_cons, List.contains_nil,
    beq_iff_eq, Bool.false_eq_true, or_false] at h
  rcases h with (h | h) | ⟨h, -⟩
  · rcases h with rfl | rfl | rfl
    · exact .inl ⟨.openParen, rfl⟩
    · exact .inl ⟨.openBracket, rfl⟩
    · exact .inl ⟨.openAngle, rfl⟩
  · rcases h with rfl | rfl | rfl | rfl | rfl | rfl
    · exact .inr ⟨.closeParen, rfl⟩
    · exact .inr ⟨.closeBracket, rfl⟩
    · exact .inr ⟨.closeAngle, rfl⟩
    · exact .inr ⟨.openAngle, rfl⟩
    · exact .inr ⟨.comma, rfl⟩
    · exact .inr ⟨.semicolon, rfl⟩
  · exact .inl ⟨.closeParen, h⟩

/-- A word after another one, with the gap between them. -/
theorem Legible.scans_gap {word : String} (h : Legible word) (before : String) :
    Scans (heldAfter before) (gap before word ++ word.toList) [wordShape word]
      (heldAfter word) := by
  rw [gap]
  -- without a blank between them one of the words is a mark, which ends the other
  split
  · rename_i htight
    rcases mark_of_tight htight with ⟨sign, rfl⟩ | ⟨sign, rfl⟩
    · rw [heldAfter_mark]
      exact h.scans
    · rw [heldAfter_mark]
      exact .mark sign
  · exact Scans.blank.append h.scans

/-! ### Lines -/

/-- The words after a word, to the end of the line. -/
theorem scans_textAfter {words : List String} (h : ∀ word ∈ words, Legible word) (before : String) :
    Scans (heldAfter before) (textAfter before words ++ ['\n']) (lineShapes words) none := by
  induction words generalizing before with
  | nil => exact .lineBreak
  | cons word rest ih =>
    rw [List.forall_mem_cons] at h
    have hrest := ih h.2 word
    have hword := h.1.scans_gap before
    simpa [textAfter, lineShapes] using hword.append hrest

theorem scans_lineText {words : List String} (h : ∀ word ∈ words, Legible word) :
    Scans none (lineText words) (lineShapes words) none := by
  cases words with
  | nil => exact .lineBreak
  | cons word rest =>
    rw [List.forall_mem_cons] at h
    simpa [lineText, lineShapes] using h.1.scans.append (scans_textAfter h.2 word)

theorem scans_lines {lines : List (List String)} (h : ∀ line ∈ lines, ∀ word ∈ line, Legible word) :
    Scans none (lines.flatMap lineText) (lines.flatMap lineShapes) none := by
  induction lines with
  | nil => exact .nil
  | cons line rest ih =>
    rw [List.forall_mem_cons] at h
    rw [List.flatMap_cons, List.flatMap_cons]
    exact (scans_lineText h.1).append (ih h.2)

/-! ### Whole texts -/

theorem Reader.map_fst_characters {reader : Reader} (h : '\r' ∉ reader.rest) :
    reader.characters.map Prod.fst = reader.rest := by
  obtain ⟨rest, position⟩ := reader
  induction rest generalizing position with
  | nil => simp [characters, next?]
  | cons c rest ih =>
    rw [List.mem_cons, not_or] at h
    have hnext : next? ⟨c :: rest, position⟩ = some (c, ⟨rest, position.after c⟩) := by
      unfold next?
      split <;> simp_all
    rw [characters]
    split
    · simp_all
    · simp_all

/-- **Lines of legible words give tokens of these words.** -/
theorem shapes_tokenize {lines : List (List String)}
    (h : ∀ line ∈ lines, ∀ word ∈ line, Legible word) :
    (tokenize (.ofList (lines.flatMap lineText))).map Token.shape = lines.flatMap lineShapes := by
  have hscans := scans_lines h
  have hcharacters : (Reader.ofString (.ofList (lines.flatMap lineText))).characters.map Prod.fst =
      lines.flatMap lineText := by
    rw [Reader.map_fst_characters] <;> simp [Reader.ofString, hscans.oneBreak]
  -- the word that is held at the end is the one that is flushed
  have hadds := hscans.adds {} _ .nothing hcharacters
  have hholds := hscans.holds {} _ .nothing hcharacters
  rw [tokenize, List.map_append, hholds.flush.1]
  simpa using hadds

end ProtoSchema
