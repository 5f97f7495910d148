import Mathlib.Data.List.Induction
import ProtoSchema.Proofs.CommentTokens

/-!
# Literals in a text

A literal that starts where no word is being read and no comment is open is one token, whatever
stands between its quotes, up to the first quote of its own that no backslash escapes. The lexer
finds that quote by a flag, taking off the quotes does not look at backslashes at all, and the
reading of escapes walks through the body in steps of one or two characters; these agree.

* `IsBody`: what may stand between two quotes as it is.
* `StandsAlone`: a word that is a token of its own between two texts.
* `standsAlone_of_isQuote`: every text can be quoted anywhere, and is read back.
-/

namespace ProtoSchema

open Lexeme

/-! ### Bodies -/

/-- How many backslashes a text ends with. -/
def slashes (text : List Char) : Nat := (text.reverse.takeWhile (· == '\\')).length

/-- What may stand between two quotes `q`. A character is escaped if the number of backslashes
directly in front of it is odd; a `q` in the body is, and the `q` behind it is not. -/
structure IsBody (q : Char) (body : List Char) : Prop where
  unbroken : '\n' ∉ body ∧ '\r' ∉ body
  inside : ∀ i, (h : i < body.length) → body[i] = q → slashes (body.take i) % 2 = 1
  behind : slashes body % 2 = 0

instance (q : Char) (body : List Char) : Decidable (IsBody q body) :=
  decidable_of_iff
    (('\n' ∉ body ∧ '\r' ∉ body) ∧
      (∀ i, (h : i < body.length) → body[i] = q → slashes (body.take i) % 2 = 1) ∧
      slashes body % 2 = 0)
    ⟨fun h => ⟨h.1, h.2.1, h.2.2⟩, fun h => ⟨h.unbroken, h.inside, h.behind⟩⟩

variable {q : Char} {body : List Char} {before after : String}

theorem slashes_concat (text : List Char) (c : Char) :
    slashes (text ++ [c]) = if c = '\\' then slashes text + 1 else 0 := by
  by_cases hc : c = '\\'
  · simp [slashes, hc]
  · simp [slashes, hc]

/-- The flag of an open literal says whether the number of backslashes at its end is odd. -/
theorem foldlM_after
    (h : ∀ i, (h : i < body.length) → body[i] = q → slashes (body.take i) % 2 = 1) :
    body.foldlM OpenLiteral.after (Lexer.opened q) = some ⟨q, slashes body % 2 == 1⟩ := by
  -- the flag is about the end of the body, so the induction takes off the last character
  induction body using List.reverseRecOn with
  | nil => rfl
  | append_singleton front c ih =>
    have hfront : ∀ i, (h : i < front.length) → front[i] = q →
        slashes (front.take i) % 2 = 1 := by
      intro i hi hquote
      have hwhole := h i (by rw [List.length_append]; omega)
      rw [List.getElem_append_left hi, List.take_append_of_le_length (by omega)] at hwhole
      exact hwhole hquote
    have hlast : c = q → slashes front % 2 = 1 := by
      intro hc
      have hwhole := h front.length (by simp)
      rw [List.getElem_concat_length rfl, List.take_left] at hwhole
      exact hwhole hc
    have hfold := ih hfront
    rw [List.foldlM_append, hfold, slashes_concat]
    by_cases hodd : slashes front % 2 = 1
    · by_cases hc : c = '\\'
      · have heven : (slashes front + 1) % 2 = 0 := by omega
        simp [OpenLiteral.after, hodd, hc, heven]
      · simp [OpenLiteral.after, hodd, hc]
    · have hc : c ≠ q := fun hc => hodd (hlast hc)
      by_cases hc' : c = '\\'
      · have hnext : (slashes front + 1) % 2 = 1 := by omega
        simp [OpenLiteral.after, hodd, hc', hnext]
      · simp [OpenLiteral.after, hodd, hc, hc']

theorem IsBody.foldlM (h : IsBody q body) :
    body.foldlM OpenLiteral.after (Lexer.opened q) = some (Lexer.opened q) := by
  rw [foldlM_after h.inside, h.behind]
  rfl

/-! ### Tokens -/

/-- A quoted literal is text: no keyword, number or mark is quoted. -/
theorem TokenKind.ofLexeme_of_isQuoted {lexeme : String} (h : isQuoted lexeme = true) :
    TokenKind.ofLexeme lexeme = .text := by
  have hkeyword : isKeyword lexeme = false := by
    have hnone : ∀ keyword ∈ keywords, isQuoted keyword = false := by decide
    rw [← Bool.not_eq_true, isKeyword, List.contains_iff_mem]
    intro hmem
    rw [hnone lexeme hmem] at h
    cases h
  have hmark : isMark lexeme = false := by
    rw [← Bool.not_eq_true, isMark_iff]
    rintro ⟨mark, rfl⟩
    cases mark <;> exact absurd h (by decide)
  rw [ofLexeme, hkeyword, isNumber_of_isQuoted h, hmark]
  rfl

/-- The place of a character behind a text, if it does not break the line. -/
def Position.behind (text : String) : Position :=
  let last := (unifyBreaks text.toList).foldl Position.after .start
  ⟨last.line, last.column + 1⟩

/-- A word that is a token of its own between two texts: it is the token that comes behind those of
the first text, and the tokens of the second text follow, each moved to its place. -/
def StandsAlone (before word after : String) : Prop :=
  ∃ later, tokenize (before ++ (word ++ after)) =
      tokenize before ++ ⟨.text, .behind before, word⟩ :: later ∧
    later.map Token.shape = (tokenize after).map Token.shape

/-- The characters of a text with a literal put in. -/
theorem unifyBreaks_enclose (hq : isQuote q = true) (hreturn : '\r' ∉ body)
    (before after : String) :
    unifyBreaks (before ++ (enclose q body ++ after)).toList =
      unifyBreaks before.toList ++ ((enclose q body).toList ++ unifyBreaks after.toList) := by
  have hline : q ≠ '\n' := ne_of_isQuote hq (by decide)
  have hcarriage : q ≠ '\r' := ne_of_isQuote hq (by decide)
  have hword : (enclose q body).toList = q :: (body ++ [q]) := String.toList_ofList
  have hsame : '\r' ∉ (enclose q body).toList := by
    simp [hword, hcarriage.symm, hreturn]
  have hfirst : ((enclose q body ++ after).toList).head? ≠ some '\n' := by
    simp [String.toList_append, hword, hline]
  have hlast : (enclose q body).toList.getLast? ≠ some '\r' := by
    intro hlast
    exact hsame (List.mem_of_getLast? hlast)
  rw [String.toList_append, unifyBreaks_append (.inr hfirst), String.toList_append,
    unifyBreaks_append (.inl hlast), unifyBreaks_of_not_mem hsame]

/-- A text that leaves no word and no comment open has been read whole. -/
theorem feed_of_idle (hword : (Lexer.ofText before).word = none)
    (hcomment : (Lexer.ofText before).comment = none) :
    Lexer.feed {} (Position.start.along (unifyBreaks before.toList)) =
      (tokenize before, ⟨none, none⟩) := by
  have hlexer : Lexer.ofText before = ⟨none, none⟩ := by
    rw [← hword, ← hcomment]
  have hafter : (Lexer.feed {} (Position.start.along (unifyBreaks before.toList))).2 =
      ⟨none, none⟩ := by
    exact (Lexer.ofText_eq before).symm.trans hlexer
  have htokens : tokenize before =
      (Lexer.feed {} (Position.start.along (unifyBreaks before.toList))).1 := by
    rw [tokenize_eq_scan, Lexer.scan, hafter, Lexer.flush_of_word rfl, List.append_nil]
  exact Prod.ext htokens.symm hafter

/-- **A literal stands alone** where no word is being read and no comment is open, in front of
whatever ends a word. -/
theorem standsAlone_of_foldlM (hq : isQuote q = true)
    (hword : (Lexer.ofText before).word = none) (hcomment : (Lexer.ofText before).comment = none)
    (hafter : Lexer.endsWord after.toList = true) (hbreak : '\n' ∉ body) (hreturn : '\r' ∉ body)
    (hbody : body.foldlM OpenLiteral.after (Lexer.opened q) = some (Lexer.opened q)) :
    StandsAlone before (enclose q body) after := by
  have hline : q ≠ '\n' := ne_of_isQuote hq (by decide)
  -- the places of the characters of the literal and of those behind it
  let last := (unifyBreaks before.toList).foldl Position.after .start
  let stop := (enclose q body).toList.foldl Position.after last
  have hplace : last.after q = .behind before := by
    rw [Position.after, if_neg hline]
    rfl
  have hcharacters : last.along (enclose q body).toList =
      (q, .behind before) :: (last.after q).along (body ++ [q]) := by
    rw [enclose, String.toList_ofList, Position.along, hplace]
  have hfeed : Lexer.feed ⟨none, none⟩ (last.along (enclose q body).toList) =
      ([], ⟨some ⟨.behind before, enclose q body, none⟩, none⟩) := by
    rw [hcharacters]
    exact Lexer.feed_enclose hq hbreak hbody (Lexer.map_fst_along _ _)
  have hflush : Lexer.flush ⟨some ⟨.behind before, enclose q body, none⟩, none⟩ =
      ([⟨.text, .behind before, enclose q body⟩], ⟨none, none⟩) := by
    simp only [Lexer.flush, Lexer.afterWord_enclose hq, Token.ofLexeme,
      TokenKind.ofLexeme_of_isQuoted (isQuoted_enclose hq body)]
  have hends := @Lexer.scan_of_endsWord ⟨some ⟨.behind before, enclose q body, none⟩, none⟩ _ rfl
    (endsWord_unifyBreaks hafter) stop
  refine ⟨Lexer.scan {} (stop.along (unifyBreaks after.toList)), ?_, ?_⟩
  · rw [tokenize_eq_scan, unifyBreaks_enclose hq hreturn, Position.along_append, Lexer.scan_append,
      feed_of_idle hword hcomment, Position.along_append, Lexer.scan_append, hfeed, ← hends,
      hflush]
    rfl
  · rw [Lexer.map_shape_scan (.refl _), map_shape_tokenize]

/-! ### Quoted texts -/

/-- **Every text can be quoted anywhere.** Where no word is being read and no comment is open, and in
front of the end of the text, a blank or a mark, a text between quotes is one token and denotes the
text; so is every body that a literal may have, and taking off the quotes gives it back. -/
theorem standsAlone_of_isQuote (hq : isQuote q = true)
    (hword : (Lexer.ofText before).word = none) (hcomment : (Lexer.ofText before).comment = none)
    (hafter : Lexer.endsWord after.toList = true) :
    (∀ text, StandsAlone before (quoteIn q text) after ∧
      (unquote? (quoteIn q text)).map unescape = some text) ∧
    ∀ body, IsBody q body → StandsAlone before (enclose q body) after ∧
      unquote? (enclose q body) = some (.ofList body) := by
  refine ⟨fun text => ⟨?_, literal?_quoteIn hq text⟩,
    fun body hbody => ⟨?_, unquote?_enclose hq body⟩⟩
  · obtain ⟨hfold, hbreak, hreturn⟩ := Lexer.after_escapes hq text.toList
    exact standsAlone_of_foldlM hq hword hcomment hafter hbreak hreturn hfold
  · obtain ⟨hbreak, hreturn⟩ := hbody.unbroken
    exact standsAlone_of_foldlM hq hword hcomment hafter hbreak hreturn hbody.foldlM

/-- Behind an equals sign, with a line feed, a quote and a comment mark in the text, and with a body
that ends in two backslashes. -/
theorem standsAlone_of_isQuote_apostrophe :
    (StandsAlone "option a = " (quoteIn '\x27' "it\x27s // new\n") ";" ∧
      (unquote? (quoteIn '\x27' "it\x27s // new\n")).map unescape = some "it\x27s // new\n") ∧
    StandsAlone "option a = " (enclose '\x27' ['\\', '\x27', ';', '\\', '\\']) ";" ∧
      unquote? (enclose '\x27' ['\\', '\x27', ';', '\\', '\\']) = some "\\\x27;\\\\" := by
  have hbefore : Lexer.ofText "option a = " = ⟨none, none⟩ := by
    rw [Lexer.ofText_eq]
    decide
  obtain ⟨htexts, hbodies⟩ := standsAlone_of_isQuote (q := '\x27') (by decide)
    (by rw [hbefore]) (by rw [hbefore]) (by decide : Lexer.endsWord ";".toList = true)
  exact ⟨htexts _, hbodies _ (by decide)⟩

example : quoteIn '\x27' "it\x27s // new\n" = "\x27it\\\x27s // new\\n\x27" := by decide

end ProtoSchema
