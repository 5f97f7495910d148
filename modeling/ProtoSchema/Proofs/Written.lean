import ProtoSchema.Proofs.Scanning

/-!
# Words that can be written and their tokens

The words of a line become tokens that differ from them in their places only. Names, numbers and
fixed words can be written, and the tokens of names and numbers are of the kinds that statements ask
for.

* `Written`: tokens of given words.
* `Referable`: a reference that is no number, so that its token is a name.
* `Legible.of_isReference`, `Legible.int`, `Legible.fixed`: words that can be written.
* `OptionForm`: how the name of an option is written.
-/

namespace ProtoSchema

/-! ### Tokens of words -/

/-- Tokens of words: the places are arbitrary. -/
def Written (words : List String) (tokens : List Token) : Prop :=
  tokens.map Token.shape = words.map wordShape

section Written

variable {word : String} {words others : List String} {tokens : List Token}

@[simp] theorem written_nil : Written [] tokens ↔ tokens = [] := by
  simp [Written]

theorem Token.shape_eq {token : Token} :
    token.shape = wordShape word ↔ ∃ position, token = .ofLexeme position word := by
  constructor
  · intro h
    obtain ⟨kind, position, lexeme⟩ := token
    simp only [shape, wordShape, Prod.mk.injEq] at h
    obtain ⟨rfl, rfl⟩ := h
    exact ⟨position, rfl⟩
  · rintro ⟨position, rfl⟩
    rfl

@[simp] theorem written_cons :
    Written (word :: words) tokens ↔
      ∃ position rest, tokens = .ofLexeme position word :: rest ∧ Written words rest := by
  simp only [Written, List.map_cons, List.map_eq_cons_iff, Token.shape_eq]
  constructor
  · rintro ⟨_, rest, rfl, ⟨position, rfl⟩, hrest⟩
    exact ⟨position, rest, rfl, hrest⟩
  · rintro ⟨position, rest, rfl, hrest⟩
    exact ⟨_, rest, rfl, ⟨position, rfl⟩, hrest⟩

theorem written_append :
    Written (words ++ others) tokens ↔
      ∃ first second, tokens = first ++ second ∧ Written words first ∧ Written others second := by
  simp only [Written, List.map_append, List.map_eq_append_iff]

end Written

/-! ### Words that can be written -/

/-- A word that is a mark or plain, as fixed words are. -/
theorem Legible.fixed {word : String} (h : (Lexeme.isMark word || Lexeme.isPlain word) = true) :
    Legible word := by
  rw [Bool.or_eq_true] at h
  rcases h with h | h
  · unfold Lexeme.isMark at h
    split at h
    · rename_i c hword
      obtain ⟨sign, rfl⟩ := (isPunctuation_iff c).1 h
      have htext : word = sign.text := by
        rw [← String.toList_inj, hword, sign.text_eq, String.toList_singleton]
      rw [htext]
      exact .mark sign
    · cases h
  · exact .plain h

/-- A word of the characters of paths, with a minus in front at most. -/
theorem Legible.of_pathParts {word : String} {c : Char} {rest : List Char}
    (hword : word.toList = c :: rest) (hc : c = '-' ∨ Lexeme.isPathPart c = true)
    (hrest : ∀ other ∈ rest, Lexeme.isPathPart other = true) : Legible word := by
  have hplain : ∀ other, Lexeme.isPathPart other = true → isPlainChar other = true := by
    intro other hother
    rw [isPlainChar, Lexeme.isBlank_of_isPathPart hother, Lexeme.isPunctuation_of_isPathPart hother]
    rfl
  have hfirst : isPlainChar c = true ∧ Lexeme.isQuote c = false ∧ c ≠ '/' := by
    rcases hc with rfl | hc
    · decide
    · refine ⟨hplain c hc, ?_, ?_⟩
      · rw [← Bool.not_eq_true]
        intro hquote
        simp only [Lexeme.isQuote, Bool.or_eq_true, beq_iff_eq] at hquote
        rcases hquote with rfl | rfl <;> exact absurd hc (by decide)
      · rintro rfl
        exact absurd hc (by decide)
  have hslash := Ne.symm hfirst.2.2
  refine .plain ?_
  simp only [Lexeme.isPlain, Lexeme.opensLineComment, Lexeme.opensBlockComment, hword,
    List.isPrefixOf, List.isEmpty_cons, List.all_cons, hfirst.1, List.head?_cons, Option.any_some,
    hfirst.2.1, beq_eq_false_iff_ne.2 hslash, Bool.false_and, Bool.not_false, Bool.true_and,
    Bool.and_true, List.all_eq_true]
  intro other hother
  exact hplain other (hrest other hother)

/-- A reference that is no number is a name wherever it stands. -/
structure Referable (word : String) : Prop where
  reference : Lexeme.isReference word = true
  notNumber : isNumberWord word = false

theorem Legible.of_isReference {word : String} (h : Lexeme.isReference word = true) :
    Legible word := by
  obtain ⟨⟨c, rest, hword, -⟩, hall⟩ := Lexeme.chars_of_isReference h
  rw [hword, List.all_cons, Bool.and_eq_true, List.all_eq_true] at hall
  exact .of_pathParts hword (.inr hall.1) hall.2

theorem Lexeme.isPathPart_toDigits (n : Nat) : ∀ c ∈ Nat.toDigits 10 n, isPathPart c = true := by
  intro c hc
  simp [isPathPart, isNamePart, Char.isAlphanum, isDigit_of_mem_toDigits hc]

theorem Legible.nat (n : Nat) : Legible (toString n) := by
  obtain ⟨c, rest, hdigits⟩ := List.exists_cons_of_ne_nil (Nat.toDigits_ne_nil (n := n) (b := 10))
  have hall := Lexeme.isPathPart_toDigits n
  rw [hdigits, List.forall_mem_cons] at hall
  refine .of_pathParts ?_ (.inr hall.1) hall.2
  rw [Nat.toString_eq_repr, Nat.toList_repr, hdigits]

theorem Legible.int (value : Int) : Legible (toString value) := by
  rw [Int.toString_eq_repr, Int.repr_eq_if]
  split
  · exact .nat value.toNat
  · refine .of_pathParts ?_ (.inl rfl) (Lexeme.isPathPart_toDigits (-value).toNat)
    rw [String.toList_append, Nat.toList_repr]
    rfl

/-! ### Which terminals admit the token of a word -/

section Admission

variable {position : Position} {word : String}

@[simp] theorem Token.lexeme_ofLexeme : (ofLexeme position word).lexeme = word := rfl

@[simp] theorem Token.isMark_ofLexeme {sign : Punctuation} :
    (ofLexeme position word).isMark sign = (word == sign.text) := rfl

@[simp] theorem Token.literalText_quote {text : String} :
    (ofLexeme position (quote text)).literalText = text := by
  simp [literalText]

@[simp] theorem Token.isQuoted_quote {text : String} :
    (ofLexeme position (quote text)).isQuoted = true :=
  Lexeme.isQuoted_quote text

theorem Token.isWord_of_referable (h : Referable word) :
    (ofLexeme position word).isWord = true := by
  have hplain : Lexeme.isNumber word = false := by
    rw [← Bool.not_eq_true]
    intro hword
    rcases Lexeme.eq_of_isNumber_of_isReference h.reference hword with rfl | rfl <;>
      exact absurd h.notNumber (by decide)
  have hmark : Lexeme.isMark word = false := by
    obtain ⟨⟨c, rest, hword, -⟩, hall⟩ := Lexeme.chars_of_isReference h.reference
    rw [List.all_eq_true] at hall
    unfold Lexeme.isMark
    split
    · rename_i c hc
      exact Lexeme.isPunctuation_of_isPathPart (hall c (by simp [hc]))
    · rfl
  simp only [isWord, ofLexeme, TokenKind.ofLexeme, hplain, hmark]
  split <;> rfl

/-- The token of a number is of the kind of numbers. -/
theorem Token.isNumber_of_isNumber (h : Lexeme.isNumber word = true) :
    (ofLexeme position word).isNumber = true := by
  have hkeyword : Lexeme.isKeyword word = false := by
    rw [← Bool.not_eq_true]
    intro hkeyword
    simp only [Lexeme.isKeyword, Lexeme.keywords, List.contains_cons, List.contains_nil,
      Bool.or_eq_true, beq_iff_eq, Bool.false_eq_true, or_false] at hkeyword
    rcases hkeyword with rfl | rfl | rfl | rfl | rfl | rfl | rfl | rfl <;>
      exact absurd h (by decide)
  simp [isNumber, ofLexeme, TokenKind.ofLexeme, hkeyword, h]

end Admission

/-! ### Names -/

namespace Vocabulary

variable {word : String}

theorem printable_isName (h : printable.isName word = true) :
    Lexeme.isIdentifier word = true ∧ Referable word := by
  simp only [printable, Bool.and_eq_true, Bool.not_eq_true'] at h
  exact ⟨h.1, Lexeme.isReference_of_isPath (Lexeme.isPath_of_isIdentifier h.1), h.2⟩

theorem printable_isConstant (h : printable.isConstant word = true) :
    Lexeme.isIdentifier word = true ∧ Referable word ∧ word ∉ "reserved" :: Lexeme.keywords := by
  simp only [printable, Bool.and_eq_true, Bool.not_eq_true'] at h
  obtain ⟨⟨hname, hnumber⟩, hbars⟩ := h
  refine ⟨hname, ⟨Lexeme.isReference_of_isPath (Lexeme.isPath_of_isIdentifier hname), hnumber⟩, ?_⟩
  simpa using hbars

theorem printable_isPackage (h : printable.isPackage word = true) :
    Lexeme.isPath word = true ∧ Referable word := by
  simp only [printable, Bool.and_eq_true, Bool.not_eq_true'] at h
  exact ⟨h.1, Lexeme.isReference_of_isPath h.1, h.2⟩

theorem printable_isMessageType (h : printable.isMessageType word = true) : Referable word := by
  simp only [printable, Bool.and_eq_true, Bool.not_eq_true'] at h
  exact ⟨h.1, h.2⟩

end Vocabulary

/-- The type of a field is written as a word that starts no other statement. -/
theorem FieldType.referable_text {type : FieldType} (h : type.WellFormed .printable) :
    Lexeme.isTypeName type.text = true ∧ Referable type.text ∧
      type.text ∉ ["reserved", "repeated", "optional"] := by
  cases type with
  | scalar scalar =>
    refine ⟨?_, ⟨?_, ?_⟩, ?_⟩ <;> cases scalar <;> decide
  | user name =>
    simp only [WellFormed, Vocabulary.printable, Bool.and_eq_true, Bool.not_eq_true'] at h
    obtain ⟨⟨⟨htype, -⟩, hnumber⟩, hbars⟩ := h
    refine ⟨htype, ⟨?_, hnumber⟩, ?_⟩
    · simp only [Lexeme.isTypeName, Bool.and_eq_true] at htype
      exact htype.2
    · simpa [text] using hbars

/-- An extension and the path after it are parts of the name of an option. -/
theorem Lexeme.toList_of_extensionParts? {text name path : List Char}
    (h : extensionParts? text = some (name, path)) : text = '(' :: (name ++ ')' :: path) := by
  unfold extensionParts? at h
  split at h
  · rename_i rest
    split at h
    · rename_i c others hdrop
      obtain ⟨rfl, rfl⟩ := Prod.mk.inj (Option.some.inj h)
      have hc : c = ')' := by
        have := List.head_dropWhile_not (· != ')') (l := rest) (by simp [hdrop])
        simpa [hdrop] using this
      subst hc
      rw [← hdrop, List.takeWhile_append_dropWhile]
    · cases h
  · cases h

/-- How the name of an option is written. -/
inductive OptionForm : String → List String → Prop
  | path {name : String} (h : Referable name) (hpath : Lexeme.isPath name = true) :
      OptionForm name [name]
  | extension {name : String} (h : Referable name) :
      OptionForm ("(" ++ name ++ ")") ["(", name, ")"]
  | member {name path : String} (h : Referable name) (hpath : Lexeme.isMemberPath path = true) :
      OptionForm ("(" ++ name ++ ")" ++ path) ["(", name, ")", path]

theorem Vocabulary.printable_isOption {name : String} (h : printable.isOption name = true) :
    OptionForm name (Lexeme.optionWords name) := by
  simp only [printable, Lexeme.isOptionName, Lexeme.optionWords, Bool.and_eq_true, Bool.or_eq_true,
    List.all_eq_true, Bool.not_eq_true'] at h
  obtain ⟨hname, hnumbers⟩ := h
  unfold Lexeme.optionWords
  cases hparts : Lexeme.extensionParts? name.toList with
  | none =>
    rw [hparts] at hname hnumbers
    simp only [Option.any_none, Bool.false_eq_true, or_false] at hname
    exact .path ⟨Lexeme.isReference_of_isPath hname, hnumbers name (by simp)⟩ hname
  | some parts =>
    obtain ⟨extension, path⟩ := parts
    have htext := Lexeme.toList_of_extensionParts? hparts
    -- no path starts with a parenthesis, so that only the extension is left
    have hpath : Lexeme.isPath name = false := by
      rw [← Bool.not_eq_true]
      intro hpath
      have hall := (Lexeme.chars_of_isReference (Lexeme.isReference_of_isPath hpath)).2
      rw [htext, List.all_cons, Bool.and_eq_true] at hall
      exact absurd hall.1 (by decide)
    rw [hparts] at hname hnumbers
    simp only [hpath, Bool.false_eq_true, false_or, Option.any_some, Bool.and_eq_true,
      Bool.or_eq_true] at hname
    have hextension : Referable (.ofList extension) :=
      ⟨hname.1, hnumbers _ (by simp)⟩
    cases path with
    | nil =>
      have hform : name = "(" ++ .ofList extension ++ ")" := by
        simp [← String.toList_inj, htext]
      rw [hform]
      exact .extension hextension
    | cons c rest =>
      have hform : name = "(" ++ .ofList extension ++ ")" ++ .ofList (c :: rest) := by
        simp [← String.toList_inj, htext]
      rw [hform]
      exact .member hextension (by simpa using hname.2)

theorem OptionForm.legible {name : String} {words : List String} (h : OptionForm name words) :
    ∀ word ∈ words, Legible word := by
  have hopen : Legible "(" := .mark .openParen
  have hclose : Legible ")" := .mark .closeParen
  cases h with
  | path h _ => simpa using Legible.of_isReference h.reference
  | extension h => simpa [hopen, hclose] using Legible.of_isReference h.reference
  | member h hpath =>
    have hmember := Legible.of_isReference (by rw [Lexeme.isReference, hpath, Bool.or_true])
    simpa [hopen, hclose, hmember] using Legible.of_isReference h.reference

end ProtoSchema
