import Mathlib.Data.List.Chain
import ProtoSchema.Proofs.Lexing
import ProtoSchema.Proofs.Tiling

/-!
# Words go on as far as they can

A line is cut at blanks and marks only, and inside a literal not even there. So a token is a line
break, a mark, or a word of one line that has blanks and marks in it only if it starts with a quote,
and two words in a row have a blank between them.

* `Token.IsMunched`: a token that is neither a line break nor a mark.
* `BlankBetween`: a blank of the text directly behind one token and in front of another.
* `Cut.chain`, `CutLines.chain`: the words of a line and of several lines.
* `tokens_munched`: the tokens of a text.
-/

namespace ProtoSchema

variable {number column : Nat} {text : List Char} {lines : List (List Char)} {a b : Token}
  {tokens : List Token}

/-! ### Kinds of tokens -/

/-- A token that goes on until something ends it: neither a mark nor a line break. -/
def Token.NeedsGap (token : Token) : Prop :=
  token.kind ≠ .punctuation ∧ token.kind ≠ .lineEnd

/-- A token that is neither a mark nor a line break: a word of one line, of the kind that its
characters decide. -/
structure Token.IsMunched (token : Token) : Prop where
  word : Lexeme.IsWord token.lexeme
  unbroken : '\n' ∉ token.lexeme.toList ∧ '\r' ∉ token.lexeme.toList
  kind_eq : token.kind = .ofLexeme token.lexeme
  needsGap : token.NeedsGap

/-- A quote is neither blank nor a mark. -/
theorem Lexeme.not_ends_of_isQuote {c : Char} (h : isQuote c = true) :
    (isBlank c || isPunctuation c) = false := by
  simp only [isQuote, Bool.or_eq_true, beq_iff_eq] at h
  rcases h with rfl | rfl
  · decide
  · decide

/-- What is cut out as a word is not of the kind of marks, since a mark in it stands behind a
quote. -/
theorem Lexeme.IsWord.kind_ne {lexeme : String} (h : IsWord lexeme) :
    TokenKind.ofLexeme lexeme ≠ .punctuation := by
  intro hkind
  have hmark : isMark lexeme = true := by
    unfold TokenKind.ofLexeme at hkind
    split at hkind
    · cases hkind
    · split at hkind
      · cases hkind
      · split at hkind
        · assumption
        · cases hkind
  obtain ⟨mark, rfl⟩ := (isMark_iff lexeme).1 hmark
  have hends : isPunctuation mark.char = true := (isPunctuation_iff _).2 ⟨mark, rfl⟩
  have hquoted := h.quoted mark.char (by rw [mark.text_eq]; simp) (by simp [hends])
  cases mark <;> exact absurd hquoted (by decide)

/-- A line is cut into marks and words. -/
theorem Cut.kinds (h : Cut number column text tokens) : ∀ token ∈ tokens,
    (token.kind = .punctuation ∧ ∃ mark : Punctuation, token.lexeme = mark.text) ∨
      token.kind = .ofLexeme token.lexeme ∧ Lexeme.IsWord token.lexeme := by
  induction h with
  | done => simp
  | blank _ _ ih => exact ih
  | mark hmark _ ih =>
    obtain ⟨mark, rfl⟩ := (isPunctuation_iff _).1 hmark
    exact List.forall_mem_cons.2 ⟨.inl ⟨rfl, mark, mark.text_eq.symm⟩, ih⟩
  | word hword _ _ ih => exact List.forall_mem_cons.2 ⟨.inr ⟨rfl, hword⟩, ih⟩

/-- Several lines are cut into line breaks, marks and words. -/
theorem CutLines.kinds (h : CutLines number lines tokens) : ∀ token ∈ tokens,
    (token.kind = .lineEnd ∧ token.lexeme = "\n") ∨
      (token.kind = .punctuation ∧ ∃ mark : Punctuation, token.lexeme = mark.text) ∨
      token.kind = .ofLexeme token.lexeme ∧ Lexeme.IsWord token.lexeme := by
  induction h with
  | last hline => exact fun token htoken => .inr (hline.kinds token htoken)
  | more hline _ ih =>
    refine List.forall_mem_append.2 ⟨fun token htoken => .inr (hline.kinds token htoken), ?_⟩
    exact List.forall_mem_cons.2 ⟨.inl ⟨rfl, rfl⟩, ih⟩

/-! ### Blanks between words -/

/-- A blank of a line, counted behind `column` characters, that stands directly behind one token and
in front of another. -/
def BlankOnLine (number column : Nat) (text : List Char) (a b : Token) : Prop :=
  ∃ offset c, text[offset]? = some c ∧ isBlank c = true ∧
    a.position.line = number ∧ b.position.line = number ∧
    a.position.column + a.lexeme.toList.length = column + offset + 1 ∧
    column + offset + 1 < b.position.column

/-- A blank of a text that stands directly behind one token and in front of another, on the line of
both. Lines are numbered from `number` on, and columns are counted from one. -/
def BlankBetween (number : Nat) (lines : List (List Char)) (a b : Token) : Prop :=
  ∃ row chars, lines[row]? = some chars ∧ BlankOnLine (number + row) 0 chars a b

/-- More characters in front of a line. -/
theorem BlankOnLine.append (front : List Char)
    (h : BlankOnLine number (column + front.length) text a b) :
    BlankOnLine number column (front ++ text) a b := by
  obtain ⟨offset, c, hc, hblank, ha, hb, hbehind, hbefore⟩ := h
  refine ⟨front.length + offset, c, ?_, hblank, ha, hb, by omega, by omega⟩
  rw [List.getElem?_append_right (by omega), Nat.add_sub_cancel_left]
  exact hc

/-- One more line in front. -/
theorem BlankBetween.cons {line : List Char} (h : BlankBetween (number + 1) lines a b) :
    BlankBetween number (line :: lines) a b := by
  obtain ⟨row, chars, hchars, hblank⟩ := h
  refine ⟨row + 1, chars, hchars, ?_⟩
  rwa [Nat.add_assoc, Nat.add_comm 1] at hblank

/-- A word that comes where another one has ended comes behind a blank. -/
theorem Cut.exists_blank (h : Cut number column text tokens) (hends : Lexer.endsWord text = true)
    (hb : b ∈ tokens.head?) (hgap : b.NeedsGap) :
    ∃ c rest, text = c :: rest ∧ isBlank c = true ∧ b.position.line = number ∧
      column + 1 < b.position.column := by
  cases h with
  | done => cases hb
  | @blank _ c rest _ hblank hrest =>
    obtain ⟨-, -, offset, hposition, -⟩ := hrest.tiles.found b (List.mem_of_head? hb)
    refine ⟨c, rest, rfl, hblank, ?_, ?_⟩
    · rw [hposition]
    · rw [hposition]
      simp only
      omega
  | mark _ _ =>
    obtain rfl := Option.some.inj hb
    exact absurd rfl hgap.1
  | @word _ lexeme rest _ hword _ _ =>
    -- the word starts with what ended the one before it, which is no quote
    obtain ⟨c, others, hlexeme⟩ := List.exists_cons_of_ne_nil hword.ne_nil
    have hc : (isBlank c || isPunctuation c) = true := by
      simpa [Lexer.endsWord, hlexeme] using hends
    have hquoted := hword.quoted c (by simp [hlexeme]) hc
    have hquote : Lexeme.isQuote c = true := by
      simpa [Lexeme.startsQuoted, hlexeme] using hquoted
    rw [Lexeme.not_ends_of_isQuote hquote] at hc
    cases hc

/-- **Two words in a row on a line have a blank between them.** -/
theorem Cut.chain (h : Cut number column text tokens) :
    tokens.IsChain fun a b => a.NeedsGap → b.NeedsGap → BlankOnLine number column text a b := by
  induction h with
  | done => exact .nil
  | @blank _ c _ _ _ _ ih =>
    exact ih.imp fun _ _ hblank ha hb => (hblank ha hb).append [c]
  | @mark _ c _ _ _ _ ih =>
    refine List.isChain_cons.2 ⟨fun b _ ha => absurd rfl ha.1, ?_⟩
    exact ih.imp fun _ _ hblank ha hb => (hblank ha hb).append [c]
  | @word column lexeme rest _ _ hends hrest ih =>
    refine List.isChain_cons.2 ⟨fun b hb _ hgap => ?_, ?_⟩
    · obtain ⟨c, others, rfl, hblank, hline, hcolumn⟩ := hrest.exists_blank hends hb hgap
      refine ⟨lexeme.toList.length, c, by simp, hblank, rfl, hline, ?_, hcolumn⟩
      simp only [Token.ofLexeme]
      omega
    · exact ih.imp fun _ _ hblank ha hb => (hblank ha hb).append lexeme.toList

/-- **Two words in a row have a blank between them**, since a line break is a token. -/
theorem CutLines.chain (h : CutLines number lines tokens) :
    tokens.IsChain fun a b => a.NeedsGap → b.NeedsGap → BlankBetween number lines a b := by
  induction h with
  | @last _ line _ hline =>
    exact hline.chain.imp fun _ _ hblank ha hb => ⟨0, line, rfl, hblank ha hb⟩
  | @more number line lines tokens others hline _ ih =>
    have hbreak : ¬(Token.lineBreak ⟨number + 1, 0⟩).NeedsGap := fun h => h.2 rfl
    refine List.isChain_append.2 ⟨?_, List.isChain_cons.2 ⟨?_, ?_⟩, ?_⟩
    · exact hline.chain.imp fun _ _ hblank ha hb => ⟨0, line, rfl, hblank ha hb⟩
    · exact fun b _ hgap => absurd hgap hbreak
    · exact ih.imp fun _ _ hblank ha hb => (hblank ha hb).cons
    · intro a _ b hb _ hgap
      obtain rfl := Option.some.inj hb
      exact absurd hgap hbreak

/-! ### Texts -/

/-- **Tokens are cut as far apart as they must be, and no further.** A token of a text is a line
break, one of the eleven marks, or a word; and where two words follow each other, a blank of the text
stands directly behind the first one and in front of the second. -/
theorem tokens_munched (source : String) :
    (∀ token ∈ tokenize source,
      (token.kind = .lineEnd ∧ token.lexeme = "\n") ∨
        (token.kind = .punctuation ∧ ∃ mark : Punctuation, token.lexeme = mark.text) ∨
        token.IsMunched) ∧
      (tokenize source).IsChain fun a b => a.NeedsGap → b.NeedsGap →
        BlankBetween 1 (textLines source.toList) a b := by
  have hcuts := cutLines_tokenize source
  refine ⟨fun token htoken => ?_, hcuts.chain⟩
  rcases hcuts.kinds token htoken with hbreak | hmark | ⟨hkind, hword⟩
  · exact .inl hbreak
  · exact .inr (.inl hmark)
  -- a word is a piece of one line
  have hend : token.isLineEnd = false := by
    have hofLexeme := Token.isLineEnd_ofLexeme token.position token.lexeme
    rwa [Token.ofLexeme, ← hkind] at hofLexeme
  obtain ⟨row, offset, chars, -, hchars, -, hpiece⟩ :=
    (tiling_tokenize source).found token htoken hend
  obtain ⟨hline, hcarriage⟩ := not_mem_textLines _ chars (List.mem_of_getElem? hchars)
  have hinside : ∀ {c : Char}, c ∈ token.lexeme.toList → c ∈ chars :=
    fun hc => List.mem_of_mem_drop (hpiece.subset hc)
  refine .inr (.inr ⟨hword, ⟨fun hc => hline (hinside hc), fun hc => hcarriage (hinside hc)⟩, hkind,
    hkind ▸ hword.kind_ne, ?_⟩)
  intro hlineEnd
  rw [Token.isLineEnd, hlineEnd] at hend
  cases hend

/-- Two words, of which the second one is a literal with a mark in it, and the semicolon behind
them. -/
def literalOption : String := "a \x22b;\x22;"

/-- The literal is one word, and a blank stands between it and the word before it. -/
theorem tokens_munched_literalOption :
    tokenize literalOption = [.ofLexeme ⟨1, 1⟩ "a", .ofLexeme ⟨1, 3⟩ "\x22b;\x22",
        ⟨.punctuation, ⟨1, 7⟩, ";"⟩] ∧
      Token.IsMunched (.ofLexeme ⟨1, 3⟩ "\x22b;\x22") ∧
      BlankBetween 1 (textLines literalOption.toList) (.ofLexeme ⟨1, 1⟩ "a")
        (.ofLexeme ⟨1, 3⟩ "\x22b;\x22") := by
  have htokens : tokenize literalOption = [.ofLexeme ⟨1, 1⟩ "a", .ofLexeme ⟨1, 3⟩ "\x22b;\x22",
      ⟨.punctuation, ⟨1, 7⟩, ";"⟩] := by decide +kernel
  obtain ⟨hkinds, hchain⟩ := tokens_munched literalOption
  rw [htokens] at hkinds hchain
  have hgap : ∀ word ∈ ["a", "\x22b;\x22"], ∀ place, (Token.ofLexeme place word).NeedsGap := by
    intro word hword place
    have hkind : TokenKind.ofLexeme word = .text := by
      rcases List.mem_pair.1 hword with rfl | rfl
      · decide
      · decide
    simp [Token.NeedsGap, Token.ofLexeme, hkind]
  refine ⟨htokens, ?_, (List.isChain_cons_cons.1 hchain).1 (hgap _ (by simp) _) (hgap _ (by simp) _)⟩
  rcases hkinds (.ofLexeme ⟨1, 3⟩ "\x22b;\x22") (by simp) with ⟨hkind, -⟩ | ⟨hkind, -⟩ | hmunched
  · exact absurd hkind (hgap _ (by simp) _).2
  · exact absurd hkind (hgap _ (by simp) _).1
  · exact hmunched

end ProtoSchema
