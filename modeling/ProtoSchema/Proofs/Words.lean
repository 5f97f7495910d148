import ProtoSchema.Statement.Terminal
import ProtoSchema.Text.Blank

/-!
# What words are made of

Names and the paths made of them have few sorts of characters, so they are no comments, marks,
quoted literals or, two of them apart, numbers. A quoted literal is no number either.

* `Lexeme.chars_of_isReference`: the characters of a reference.
* `Lexeme.eq_of_isNumber_of_isReference`: of all references only `inf` and `nan` are numbers.
* `Token.Regular`: a token as a text gives it, its kind decided by its word.
-/

namespace ProtoSchema.Lexeme

/-- Whether a character may stand in a path. -/
def isPathPart (c : Char) : Bool := isNamePart c || c == '.'

theorem isNamePart_of_isNameStart {c : Char} (h : isNameStart c = true) : isNamePart c = true := by
  simp only [isNameStart, isNamePart, Char.isAlphanum, Bool.or_eq_true] at h ⊢
  exact h.imp_left .inl

/-- The code points of the letters. -/
theorem isAlpha_iff (c : Char) :
    c.isAlpha = true ↔ 65 ≤ c.toNat ∧ c.toNat ≤ 90 ∨ 97 ≤ c.toNat ∧ c.toNat ≤ 122 := by
  have hupper : c.isUpper = true ↔ 65 ≤ c.toNat ∧ c.toNat ≤ 90 := decide_eq_true_iff
  have hlower : c.isLower = true ↔ 97 ≤ c.toNat ∧ c.toNat ≤ 122 := by
    rw [show c.isLower = (decide (97 ≤ c.toNat) && decide (c.toNat ≤ 122)) from rfl]
    simp
  rw [show c.isAlpha = (c.isUpper || c.isLower) from rfl, Bool.or_eq_true, hupper, hlower]

theorem toNat_of_isPathPart {c : Char} (h : isPathPart c = true) :
    46 = c.toNat ∨ 48 ≤ c.toNat ∧ c.toNat ≤ 57 ∨ 65 ≤ c.toNat ∧ c.toNat ≤ 90 ∨ 95 = c.toNat ∨
      97 ≤ c.toNat ∧ c.toNat ≤ 122 := by
  simp only [isPathPart, isNamePart, Char.isAlphanum, isAlpha_iff, Char.isDigit, Bool.or_eq_true,
    Bool.and_eq_true, decide_eq_true_eq, beq_iff_eq, ge_iff_le, UInt32.le_iff_toNat_le] at h
  rcases h with (((h | h) | h) | rfl) | rfl
  · exact .inr (.inr (.inl h))
  · exact .inr (.inr (.inr (.inr h)))
  · exact .inr (.inl h)
  all_goals decide

theorem isBlank_of_isPathPart {c : Char} (h : isPathPart c = true) : isBlank c = false := by
  have hrange := toNat_of_isPathPart h
  simp only [isBlank, blankRuns, List.any_cons, List.any_nil, Bool.or_false, Bool.or_eq_false_iff,
    Bool.and_eq_false_iff, decide_eq_false_iff_not]
  omega

theorem isPunctuation_of_isPathPart {c : Char} (h : isPathPart c = true) :
    isPunctuation c = false := by
  rw [← Bool.not_eq_true, isPunctuation_iff]
  rintro ⟨mark, rfl⟩
  cases mark <;> revert h <;> decide

theorem pieces_ne_nil (text : List Char) : pieces text ≠ [] := by
  cases text with
  | nil => simp [pieces]
  | cons c rest =>
    rw [pieces]
    split
    · simp
    · split <;> simp

theorem isNamePart_of_isName {text : List Char} (h : isName text = true) :
    text.all isNamePart = true := by
  cases text with
  | nil => rfl
  | cons c rest =>
    rw [isName, Bool.and_eq_true] at h
    rw [List.all_cons, isNamePart_of_isNameStart h.1, h.2]
    rfl

/-- A text has the characters of its pieces and dots. -/
theorem isPathPart_of_pieces {text : List Char}
    (h : ∀ piece ∈ pieces text, piece.all isNamePart = true) : text.all isPathPart = true := by
  induction text with
  | nil => rfl
  | cons c rest ih =>
    rw [pieces] at h
    split at h
    · rename_i hdot
      rw [List.forall_mem_cons] at h
      rw [List.all_cons, ih h.2, hdot]
      rfl
    · obtain ⟨piece, others, hpieces⟩ := List.exists_cons_of_ne_nil (pieces_ne_nil rest)
      rw [hpieces] at h ih
      simp only [List.forall_mem_cons, List.all_cons, Bool.and_eq_true] at h ih ⊢
      exact ⟨by rw [isPathPart, h.1.1]; rfl, ih ⟨h.1.2, h.2⟩⟩

theorem isPathPart_of_isDotted {text : List Char} (h : isDotted text = true) :
    text.all isPathPart = true :=
  isPathPart_of_pieces fun piece hpiece => isNamePart_of_isName (List.all_eq_true.1 h piece hpiece)

/-- A path starts with a letter or an underscore. -/
theorem exists_cons_of_isDotted {text : List Char} (h : isDotted text = true) :
    ∃ c rest, text = c :: rest ∧ isNameStart c = true := by
  cases text with
  | nil => cases h
  | cons c rest =>
    refine ⟨c, rest, rfl, ?_⟩
    rw [isDotted, pieces] at h
    split at h
    · simp [isName] at h
    · split at h <;> simp only [List.all_cons, isName, Bool.and_eq_true] at h <;> exact h.1.1

/-- **The characters of a reference.** There is at least one, the first starts a name or is a dot,
and all may stand in a path. -/
theorem chars_of_isReference {lexeme : String} (h : isReference lexeme = true) :
    (∃ c rest, lexeme.toList = c :: rest ∧ (isNameStart c = true ∨ c = '.')) ∧
      lexeme.toList.all isPathPart = true := by
  rw [isReference, Bool.or_eq_true] at h
  rcases h with h | h
  · obtain ⟨c, rest, hlexeme, hstart⟩ := exists_cons_of_isDotted h
    exact ⟨⟨c, rest, hlexeme, .inl hstart⟩, isPathPart_of_isDotted h⟩
  · unfold isMemberPath at h
    split at h
    · rename_i rest hlexeme
      refine ⟨⟨'.', rest, hlexeme, .inr rfl⟩, ?_⟩
      rw [hlexeme, List.all_cons, isPathPart_of_isDotted h]
      rfl
    · cases h

theorem isReference_of_isPath {lexeme : String} (h : isPath lexeme = true) :
    isReference lexeme = true := by
  rw [isReference, h]
  rfl

theorem pieces_of_isName {text : List Char} (h : text.all isNamePart = true) :
    pieces text = [text] := by
  induction text with
  | nil => rfl
  | cons c rest ih =>
    rw [List.all_cons, Bool.and_eq_true] at h
    have hdot : c ≠ '.' := by
      rintro rfl
      exact absurd h.1 (by decide)
    rw [pieces, if_neg hdot, ih h.2]

theorem isPath_of_isIdentifier {lexeme : String} (h : isIdentifier lexeme = true) :
    isPath lexeme = true := by
  rw [isPath, isDotted, pieces_of_isName (isNamePart_of_isName h), List.all_cons, List.all_nil,
    Bool.and_true]
  exact h

/-- A reference opens no comment. -/
theorem not_opens_of_isReference {lexeme : String} (h : isReference lexeme = true) :
    opensLineComment lexeme = false ∧ opensBlockComment lexeme = false := by
  obtain ⟨⟨c, rest, hlexeme, -⟩, hall⟩ := chars_of_isReference h
  have hslash : c ≠ '/' := by
    rintro rfl
    rw [hlexeme] at hall
    exact absurd hall (by simp [isPathPart, isNamePart])
  simp [opensLineComment, opensBlockComment, hlexeme, List.isPrefixOf, hslash.symm]

/-- A word that starts like no numeral is a number only if it is one of two words. -/
theorem isNumber_of_start {lexeme : String} {c : Char} {rest : List Char}
    (hlexeme : lexeme.toList = c :: rest) (hsign : isSign c = false) (hdigit : c.isDigit = false)
    (hdot : c = '.' → ∀ d ∈ rest.head?, d.isDigit = false) (h : isNumber lexeme = true) :
    lexeme = "inf" ∨ lexeme = "nan" := by
  -- without a sign or a digit in front no numeral starts here
  have hbody : unsigned (c :: rest) = c :: rest := by simp [unsigned, hsign]
  have hhex : isHexNumeral (c :: rest) = false := by
    have hzero : c ≠ '0' := by
      rintro rfl
      exact absurd hdigit (by decide)
    unfold isHexNumeral
    split <;> simp_all
  have hdecimal : isDecimalNumeral (c :: rest) = false := by
    simp only [isDecimalNumeral, List.takeWhile_cons, List.dropWhile_cons, hdigit,
      Bool.false_eq_true, if_false]
    split
    · rename_i heq
      cases heq
      have hrest : rest.takeWhile Char.isDigit = [] := by
        cases rest with
        | nil => rfl
        | cons d others => simp [hdot rfl d (by simp)]
      simp [hrest]
    · simp
  rw [isNumber, hlexeme] at h
  simp only [hbody, hhex, hdecimal, Bool.false_or, Bool.or_eq_true, beq_iff_eq] at h
  rw [← hlexeme] at h
  exact h.imp (fun h => String.toList_injective h) (fun h => String.toList_injective h)

theorem isDigit_of_isNameStart {c : Char} (h : isNameStart c = true) :
    isSign c = false ∧ c.isDigit = false ∧ c ≠ '.' := by
  refine ⟨?_, ?_, ?_⟩
  · rw [← Bool.not_eq_true, isSign, Bool.or_eq_true, beq_iff_eq, beq_iff_eq]
    rintro (rfl | rfl) <;> exact absurd h (by decide)
  · have hdigit : c.isDigit = true → c.toNat ≤ 57 := by
      intro hdigit
      simp only [Char.isDigit, Bool.and_eq_true, decide_eq_true_eq] at hdigit
      exact hdigit.2
    rw [← Bool.not_eq_true]
    intro hc
    have hle := hdigit hc
    rw [isNameStart, Bool.or_eq_true, isAlpha_iff, beq_iff_eq] at h
    rcases h with h | rfl
    · omega
    · exact absurd hle (by decide)
  · rintro rfl
    exact absurd h (by decide)

/-- **Of all references only two are numbers.** -/
theorem eq_of_isNumber_of_isReference {lexeme : String} (h : isReference lexeme = true)
    (hnumber : isNumber lexeme = true) : lexeme = "inf" ∨ lexeme = "nan" := by
  rw [isReference, Bool.or_eq_true] at h
  rcases h with h | h
  · obtain ⟨c, rest, hlexeme, hstart⟩ := exists_cons_of_isDotted h
    obtain ⟨hsign, hdigit, hdot⟩ := isDigit_of_isNameStart hstart
    exact isNumber_of_start hlexeme hsign hdigit (fun h => absurd h hdot) hnumber
  · unfold isMemberPath at h
    split at h
    · rename_i rest hlexeme
      refine isNumber_of_start hlexeme rfl rfl (fun _ => ?_) hnumber
      obtain ⟨c, others, rfl, hstart⟩ := exists_cons_of_isDotted h
      simpa using (isDigit_of_isNameStart hstart).2.1
    · cases h

/-- A quoted literal starts with a quote. -/
theorem exists_quote_of_isQuoted {lexeme : String} (h : isQuoted lexeme = true) :
    ∃ quote rest, lexeme.toList = quote :: rest ∧ isQuote quote = true := by
  rw [isQuoted, unquote?, Option.isSome_map] at h
  unfold unquoteChars? at h
  split at h
  · cases h
  · rename_i quote rest hlexeme
    split at h
    · rename_i hquote
      exact ⟨quote, rest, hlexeme, hquote⟩
    · cases h

/-- A quoted literal is no number. -/
theorem isNumber_of_isQuoted {lexeme : String} (h : isQuoted lexeme = true) :
    isNumber lexeme = false := by
  obtain ⟨quote, rest, hlexeme, hquote⟩ := exists_quote_of_isQuoted h
  rw [← Bool.not_eq_true]
  intro hnumber
  simp only [isQuote, Bool.or_eq_true, beq_iff_eq] at hquote
  rcases hquote with rfl | rfl
  all_goals
    rcases isNumber_of_start hlexeme rfl rfl (fun h => absurd h (by decide)) hnumber with
      rfl | rfl <;> simp at hlexeme

/-! ### Words that start like a comment -/

section Slash

variable {lexeme : String} {c : Char}

theorem exists_of_slash (h : ['/', c].isPrefixOf lexeme.toList = true) :
    ∃ rest, lexeme.toList = '/' :: c :: rest := by
  obtain ⟨rest, hrest⟩ := List.isPrefixOf_iff_prefix.1 h
  exact ⟨rest, hrest.symm⟩

/-- A word that starts with a slash is no number. -/
theorem isNumber_of_slash (h : ['/', c].isPrefixOf lexeme.toList = true) :
    isNumber lexeme = false := by
  obtain ⟨rest, hlexeme⟩ := exists_of_slash h
  rw [← Bool.not_eq_true]
  intro hnumber
  rcases isNumber_of_start hlexeme rfl rfl (fun h => absurd h (by decide)) hnumber with
    rfl | rfl <;> simp at hlexeme

theorem integer?_of_slash (h : ['/', c].isPrefixOf lexeme.toList = true) :
    integer? lexeme = none := by
  obtain ⟨rest, hlexeme⟩ := exists_of_slash h
  simp [integer?, hlexeme, magnitude?, isDigits]

theorem isReference_of_slash (h : ['/', c].isPrefixOf lexeme.toList = true) :
    isReference lexeme = false := by
  obtain ⟨rest, hlexeme⟩ := exists_of_slash h
  rw [← Bool.not_eq_true]
  intro hreference
  have hall := (chars_of_isReference hreference).2
  rw [hlexeme] at hall
  exact absurd hall (by simp [isPathPart, isNamePart])

theorem isQuoted_of_slash (h : ['/', c].isPrefixOf lexeme.toList = true) :
    isQuoted lexeme = false := by
  obtain ⟨rest, hlexeme⟩ := exists_of_slash h
  rw [← Bool.not_eq_true]
  intro hquoted
  obtain ⟨quote, others, hquote, hisQuote⟩ := exists_quote_of_isQuoted hquoted
  rw [hlexeme] at hquote
  cases hquote
  exact absurd hisQuote (by decide)

theorem mapKeyOfText?_of_slash (h : ['/', c].isPrefixOf lexeme.toList = true) :
    Scalar.mapKeyOfText? lexeme = none := by
  have hnone : Scalar.ofText? lexeme = none := by
    rw [Scalar.ofText?, List.find?_eq_none]
    rintro scalar - htext
    rw [← beq_iff_eq.1 htext] at h
    cases scalar <;> simp [Scalar.text, List.isPrefixOf] at h
  rw [Scalar.mapKeyOfText?, hnone]
  rfl

/-- No word opens comments of both sorts. -/
theorem opensLineComment_of_opensBlockComment (h : opensBlockComment lexeme = true) :
    opensLineComment lexeme = false := by
  obtain ⟨rest, hlexeme⟩ := exists_of_slash h
  simp [opensLineComment, hlexeme, List.isPrefixOf]

end Slash

end ProtoSchema.Lexeme

namespace ProtoSchema.Token

variable {token : Token}

/-- A token as a text gives it: a line break, or a word of the kind that the word decides. -/
def Regular (token : Token) : Prop :=
  token.kind = .lineEnd ∧ token.lexeme = "\n" ∨ token.kind = .ofLexeme token.lexeme

theorem Regular.lexeme_of_isLineEnd (h : token.Regular) (hend : token.isLineEnd = true) :
    token.lexeme = "\n" := by
  rcases h with h | h
  · exact h.2
  · rw [isLineEnd, h, beq_iff_eq, TokenKind.ofLexeme] at hend
    split at hend
    · cases hend
    · split at hend
      · cases hend
      · split at hend <;> cases hend

theorem Regular.isLineEnd_of_slash (h : token.Regular) {c : Char}
    (hslash : ['/', c].isPrefixOf token.lexeme.toList = true) : token.isLineEnd = false := by
  rw [← Bool.not_eq_true]
  intro hend
  obtain ⟨rest, hlexeme⟩ := Lexeme.exists_of_slash hslash
  rw [h.lexeme_of_isLineEnd hend] at hlexeme
  simp at hlexeme

/-- A regular token that belongs to a terminal is no line break. -/
theorem Regular.isLineEnd_of_admits (h : token.Regular) {terminal : Terminal}
    (hadmits : terminal.admits token = true) (hword : terminal ≠ .word "\n") :
    token.isLineEnd = false := by
  rw [← Bool.not_eq_true]
  intro hend
  have hlexeme := h.lexeme_of_isLineEnd hend
  obtain ⟨kind, position, lexeme⟩ := token
  obtain rfl : kind = .lineEnd := by simpa [isLineEnd] using hend
  obtain rfl : lexeme = "\n" := hlexeme
  have hquoted : Lexeme.isQuoted "\n" = false := by decide
  have hinteger : Lexeme.integer? "\n" = none := by decide
  have hkey : Scalar.mapKeyOfText? "\n" = none := by decide
  have hmember : Scope.oneof.statement? "\n" = none := by decide
  cases terminal with
  | word lexeme =>
    obtain rfl : "\n" = lexeme := beq_iff_eq.1 hadmits
    exact hword rfl
  | mark sign => cases sign <;> cases hadmits
  | eitherMark first second => cases first <;> cases second <;> cases hadmits
  | _ =>
    simp [Terminal.admits, isWord, isQuoted, isNumber, hquoted, hinteger, hkey, hmember] at hadmits

end ProtoSchema.Token
