import ProtoSchema.Proofs.CommentExtent
import ProtoSchema.Proofs.Concatenation
import ProtoSchema.Proofs.Derive
import ProtoSchema.Proofs.Recovery

/-!
# The text of a block comment

The text of a block comment is put together from its tokens, with a space or a line break between
two of them, and its marks and the blanks at its ends are taken off again. Blanks apart, this is
what stands in the source between the marks, since only blanks stand between the tokens.

* `inked`: the characters of a text that are not blank.
* `Laid`: tokens laid over a text, each where it stands; `laid_tokenize`: those of a text.
* `Laid.at_token`: the text before a token and behind it.
* `CommentSpan`: a comment in a source, with its marks and the places of its first and last token.
* `Grammar.Line.exists_inner`: the text that is put together has both marks, apart.
* `Grammar.Line.exists_between`: so has the text that the tokens are laid over.
* `comment_text_faithful`: the text of any comment of a source.
-/

namespace ProtoSchema

open Parse

variable {text : List Char} {position : Position} {token : Token} {words tokens rest : List Token}
  {node : Node}

/-! ### Characters that are not blank -/

/-- The characters of a text that are not blank. -/
def inked (text : List Char) : List Char := text.filter (!isBlank ·)

/-- There is no blank at either end of a text. -/
def Unpadded (text : List Char) : Prop :=
  (∀ c ∈ text.head?, isBlank c = false) ∧ ∀ c ∈ text.getLast?, isBlank c = false

@[simp] theorem inked_nil : inked [] = [] := rfl

@[simp] theorem inked_append (first second : List Char) :
    inked (first ++ second) = inked first ++ inked second :=
  List.filter_append ..

theorem inked_cons_of_isBlank {c : Char} (h : isBlank c = true) :
    inked (c :: text) = inked text := by
  simp [inked, h]

theorem inked_dropWhile (text : List Char) : inked (text.dropWhile isBlank) = inked text := by
  induction text with
  | nil => rfl
  | cons c rest ih =>
    rw [List.dropWhile_cons]
    split
    · rename_i hblank
      rw [ih, inked_cons_of_isBlank hblank]
    · rfl

/-- The blanks at the ends do not count. -/
theorem inked_trim (text : List Char) : inked (trim text) = inked text := by
  have hreverse : ∀ text : List Char, inked text.reverse = (inked text).reverse :=
    fun text => List.filter_reverse ..
  rw [trim, hreverse, inked_dropWhile, hreverse, List.reverse_reverse, inked_dropWhile]

theorem unpadded_trim (text : List Char) : Unpadded (trim text) := by
  have hfirst : ∀ {text : List Char} {c : Char}, c ∈ (text.dropWhile isBlank).head? →
      isBlank c = false := by
    intro text c hc
    have hnot := List.head?_dropWhile_not isBlank text
    rw [Option.mem_def.1 hc] at hnot
    simpa using hnot
  refine ⟨?_, ?_⟩
  · -- what is left starts as it did before the blanks at its end were taken off
    intro c hc
    have hprefix : trim text <+: text.dropWhile isBlank := by
      rw [trim, ← List.reverse_suffix, List.reverse_reverse]
      exact List.dropWhile_suffix _
    obtain ⟨others, hothers⟩ := hprefix
    refine @hfirst text c ?_
    rw [← hothers, List.head?_append, Option.mem_def.1 hc]
    rfl
  · intro c hc
    rw [trim, List.getLast?_reverse] at hc
    exact hfirst hc

/-- Line breaks are blank however they are written. -/
theorem inked_unifyBreaks (text : List Char) : inked (unifyBreaks text) = inked text := by
  have hfeed : isBlank '\n' = true := by decide
  have hreturn : isBlank '\r' = true := by decide
  fun_induction unifyBreaks text with
  | case1 => rfl
  | case2 rest ih => simp [inked_cons_of_isBlank, hfeed, hreturn, ih]
  | case3 rest _ ih => simp [inked_cons_of_isBlank, hfeed, hreturn, ih]
  | case4 c rest _ _ ih => rw [← List.singleton_append, inked_append, ih, ← inked_append]; rfl

/-- A text can be split wherever the text with its line breaks unified can be. -/
theorem exists_of_unifyBreaks {first second : List Char} (h : unifyBreaks text = first ++ second) :
    ∃ before behind, text = before ++ behind ∧ unifyBreaks before = first ∧
      unifyBreaks behind = second := by
  -- both characters of a line break go to the side that its line feed goes to
  fun_induction unifyBreaks text generalizing first with
  | case1 =>
    obtain ⟨rfl, rfl⟩ := List.append_eq_nil_iff.1 h.symm
    exact ⟨[], [], rfl, rfl, rfl⟩
  | case2 rest ih =>
    cases first with
    | nil => exact ⟨[], _, rfl, rfl, h⟩
    | cons _ first =>
      obtain ⟨rfl, hrest⟩ := List.cons.inj h
      obtain ⟨before, behind, rfl, rfl, rfl⟩ := ih hrest
      exact ⟨'\r' :: '\n' :: before, behind, rfl, rfl, rfl⟩
  | case3 rest hfeed ih =>
    cases first with
    | nil =>
      refine ⟨[], _, rfl, rfl, ?_⟩
      rw [unifyBreaks]
      · exact h
      · exact hfeed
    | cons _ first =>
      obtain ⟨rfl, hrest⟩ := List.cons.inj h
      obtain ⟨before, behind, rfl, rfl, rfl⟩ := ih hrest
      refine ⟨'\r' :: before, behind, rfl, ?_, rfl⟩
      rw [unifyBreaks]
      rintro more rfl
      exact hfeed (more ++ behind) rfl
  | case4 c rest hboth hreturn ih =>
    have hstep : ∀ more, unifyBreaks (c :: more) = c :: unifyBreaks more := by
      intro more
      rw [unifyBreaks]
      · exact fun _ hc => absurd hc hreturn
      · exact hreturn
    cases first with
    | nil => exact ⟨[], _, rfl, rfl, (hstep rest).trans h⟩
    | cons _ first =>
      obtain ⟨rfl, hrest⟩ := List.cons.inj h
      obtain ⟨before, behind, rfl, rfl, rfl⟩ := ih hrest
      exact ⟨c :: before, behind, rfl, hstep before, rfl⟩

/-- A text without line breaks is what it is with its line breaks unified. -/
theorem eq_of_unifyBreaks {mark : List Char} (h : unifyBreaks text = mark) (hmark : '\n' ∉ mark) :
    text = mark := by
  subst h
  fun_induction unifyBreaks text with
  | case1 => rfl
  | case2 | case3 => simp at hmark
  | case4 c rest _ _ ih =>
    rw [List.mem_cons, not_or] at hmark
    rw [← ih hmark.2]

/-! ### Tokens laid over a text -/

/-- The words of tokens, one behind the other and without blanks. -/
def inkedWords (words : List Token) : List Char :=
  words.flatMap fun word => inked word.lexeme.toList

@[simp] theorem inkedWords_nil : inkedWords [] = [] := rfl

@[simp] theorem inkedWords_cons (token : Token) (words : List Token) :
    inkedWords (token :: words) = inked token.lexeme.toList ++ inkedWords words := rfl

@[simp] theorem inkedWords_append (first second : List Token) :
    inkedWords (first ++ second) = inkedWords first ++ inkedWords second :=
  List.flatMap_append

/-- The place of the last character of a token. -/
def Token.lastPlace (token : Token) : Position :=
  ⟨token.position.line, token.position.column + (token.lexeme.toList.length - 1)⟩

/-- **Tokens laid over a text** whose line breaks are line feeds, and which goes on behind a place.
Each token is written where its place says, and what stands between them is blank. -/
inductive Laid : Position → List Char → List Token → Prop
  | done {position : Position} : Laid position [] []
  | gap {position : Position} {c : Char} {rest : List Char} {tokens : List Token}
      (hblank : isBlank c = true) (hrest : Laid (position.after c) rest tokens) :
      Laid position (c :: rest) tokens
  | token {position : Position} {token : Token} {c : Char} {others rest : List Char}
      {tokens : List Token} (hlexeme : token.lexeme.toList = c :: others)
      (hposition : token.position = position.after c) (hothers : '\n' ∉ others)
      (hrest : Laid (others.foldl Position.after (position.after c)) rest tokens) :
      Laid position (c :: (others ++ rest)) (token :: tokens)

/-- The tokens of a line are laid over it, and others over what comes behind it. -/
theorem Tiles.laid {number column : Nat} {more : List Char} {others : List Token}
    (h : Tiles number column text tokens) (htext : '\n' ∉ text)
    (hmore : Laid ⟨number, column + text.length⟩ more others) :
    Laid ⟨number, column⟩ (text ++ more) (tokens ++ others) := by
  induction h with
  | done => exact hmore
  | @blank column c rest tokens hblank _ ih =>
    rw [List.mem_cons, not_or] at htext
    have hafter : Position.after ⟨number, column⟩ c = ⟨number, column + 1⟩ := by
      simp [Position.after, Ne.symm htext.1]
    refine .gap hblank ?_
    rw [hafter]
    refine ih htext.2 ?_
    rwa [Nat.add_assoc, Nat.add_comm 1]
  | @word column first rest tokens hposition _ hword _ ih =>
    rw [List.mem_append, not_or] at htext
    obtain ⟨c, chars, hlexeme⟩ := List.exists_cons_of_ne_nil hword
    rw [hlexeme, List.mem_cons, not_or] at htext
    have hafter : Position.after ⟨number, column⟩ c = ⟨number, column + 1⟩ := by
      simp [Position.after, Ne.symm htext.1.1]
    have hlength : column + 1 + chars.length = column + first.lexeme.toList.length := by
      rw [hlexeme, List.length_cons]
      omega
    rw [List.append_assoc, hlexeme]
    refine .token hlexeme (hposition.trans hafter.symm) htext.1.2 ?_
    rw [hafter, Position.foldl_after htext.1.2, hlength]
    refine ih htext.2 ?_
    rwa [List.length_append, ← Nat.add_assoc] at hmore

theorem TilesLines.laid {number : Nat} {lines : List (List Char)}
    (h : TilesLines number lines tokens) (hlines : ∀ line ∈ lines, '\n' ∉ line) :
    Laid ⟨number, 0⟩ (['\n'].intercalate lines) tokens := by
  induction h with
  | @last number line tokens hline =>
    rw [List.forall_mem_singleton] at hlines
    rw [List.intercalate_singleton]
    simpa using hline.laid hlines .done
  | @more number line lines tokens others hline hmore ih =>
    rw [List.forall_mem_cons] at hlines
    have hne : lines ≠ [] := by cases hmore <;> simp
    rw [List.intercalate_cons_of_ne_nil hne, List.append_assoc]
    refine hline.laid hlines.1 ?_
    exact .token (by simp [Token.lineBreak]) rfl (by simp) (ih hlines.2)

/-- **The tokens of a text are laid over it**, its line breaks unified. -/
theorem laid_tokenize (source : String) :
    Laid .start (unifyBreaks source.toList) (tokenize source) := by
  rw [unifyBreaks_eq]
  exact (tilesLines_tokenize source).laid fun line hline => (not_mem_textLines _ line hline).1

/-- **The text before a token and behind it.** -/
theorem Laid.at_token {past : List Token} (h : Laid position text (past ++ token :: rest)) :
    ∃ c others before behind, token.lexeme.toList = c :: others ∧
      text = before ++ (token.lexeme.toList ++ behind) ∧
      inked before = inkedWords past ∧
      (before ++ [c]).foldl Position.after position = token.position ∧
      (before ++ token.lexeme.toList).foldl Position.after position = token.lastPlace ∧
      Laid token.lastPlace behind rest := by
  generalize hall : past ++ token :: rest = all at h
  induction h generalizing past with
  | done => simp at hall
  | @gap position blank text tokens hblank _ ih =>
    obtain ⟨c, others, before, behind, hlexeme, rfl, hinked, hfirst, hlast, hbehind⟩ := ih hall
    exact ⟨c, others, blank :: before, behind, hlexeme, rfl,
      (inked_cons_of_isBlank hblank).trans hinked, hfirst, hlast, hbehind⟩
  | @token position first c chars text tokens hlexeme hposition hchars hmore ih =>
    -- the token in question, or one before it
    cases past with
    | nil =>
      obtain ⟨rfl, rfl⟩ := List.cons.inj hall
      have hlast : chars.foldl Position.after (position.after c) = token.lastPlace := by
        rw [← hposition, Position.foldl_after hchars, Token.lastPlace, hlexeme, List.length_cons,
          Nat.add_sub_cancel]
      rw [hlast] at hmore
      refine ⟨c, chars, [], text, hlexeme, by rw [hlexeme]; rfl, rfl, hposition.symm, ?_, hmore⟩
      rw [hlexeme]
      exact hlast
    | cons _ past =>
      obtain ⟨rfl, hmore⟩ := List.cons.inj hall
      obtain ⟨d, others, before, behind, hword, rfl, hinked, hfirst, hlast, hbehind⟩ := ih hmore
      refine ⟨d, others, c :: chars ++ before, behind, hword, by simp, ?_, ?_, ?_, hbehind⟩
      · rw [inked_append, hinked, ← hlexeme, inkedWords_cons]
      · rw [← hfirst, List.append_assoc, List.foldl_append, List.foldl_cons]
      · rw [← hlast, List.append_assoc, List.foldl_append, List.foldl_cons]

/-! ### Comments in a source -/

/-- The place of the last character of a text. -/
def placeOf (text : List Char) : Position := (unifyBreaks text).foldl Position.after .start

/-- **The source of a comment**, from the first character of the token that opens it to the last one
of the token that closes it, with the text between its marks. -/
structure CommentSpan (source : List Char) (opener closer : Token)
    (before body behind : List Char) : Prop where
  text_eq : source = before ++ (['/', '*'] ++ (body ++ (['*', '/'] ++ behind)))
  opens : placeOf (before ++ ['/']) = opener.position
  closes : placeOf (before ++ (['/', '*'] ++ (body ++ ['*', '/']))) = closer.lastPlace

/-- What a token adds to the text of a comment is its word, blanks apart. -/
theorem exists_joinToken (text : List Char) (hregular : token.Regular) :
    ∃ gap, joinToken text token = text ++ gap ∧ inked gap = inked token.lexeme.toList := by
  unfold joinToken
  split
  · rename_i hend
    rw [hregular.lexeme_of_isLineEnd hend]
    exact ⟨_, rfl, by decide⟩
  · split
    · exact ⟨_, rfl, rfl⟩
    · exact ⟨_, rfl, inked_cons_of_isBlank (by decide)⟩

/-- A word that is no line break stands at the end of the text with it. -/
theorem exists_joinToken_of_word (text : List Char) (hend : token.isLineEnd = false) :
    ∃ gap, joinToken text token = text ++ (gap ++ token.lexeme.toList) := by
  unfold joinToken
  rw [if_neg (by simp [hend])]
  split
  · exact ⟨[], rfl⟩
  · exact ⟨[' '], rfl⟩

theorem exists_foldl_joinToken (hregular : ∀ word ∈ words, word.Regular) (text : List Char) :
    ∃ added, words.foldl joinToken text = text ++ added ∧ inked added = inkedWords words := by
  induction words generalizing text with
  | nil => exact ⟨[], by simp, rfl⟩
  | cons word others ih =>
    rw [List.forall_mem_cons] at hregular
    obtain ⟨gap, hjoin, hgap⟩ := exists_joinToken text hregular.1
    obtain ⟨added, hfold, hadded⟩ := ih hregular.2 (text ++ gap)
    refine ⟨gap ++ added, ?_, ?_⟩
    · rw [List.foldl_cons, hjoin, hfold, List.append_assoc]
    · rw [inked_append, hgap, hadded, inkedWords_cons]

theorem inked_foldl_joinToken (hregular : ∀ word ∈ words, word.Regular) (text : List Char) :
    inked (words.foldl joinToken text) = inked text ++ inkedWords words := by
  obtain ⟨added, hadded, hinked⟩ := exists_foldl_joinToken hregular text
  rw [hadded, inked_append, hinked]

/-- A comment that stands in the text with its line breaks unified stands in the source. -/
theorem exists_commentSpan {source before body behind : List Char} {opener closer : Token}
    (h : unifyBreaks source = before ++ (['/', '*'] ++ (body ++ (['*', '/'] ++ behind))))
    (hopens : (before ++ ['/']).foldl Position.after .start = opener.position)
    (hcloses : (before ++ (['/', '*'] ++ (body ++ ['*', '/']))).foldl Position.after .start =
      closer.lastPlace) :
    ∃ before body' behind, CommentSpan source opener closer before body' behind ∧
      inked body' = inked body := by
  obtain ⟨before, _, rfl, rfl, hcomment⟩ := exists_of_unifyBreaks h
  obtain ⟨opening, _, rfl, hopening, hinside⟩ := exists_of_unifyBreaks hcomment
  obtain ⟨body, _, rfl, rfl, hend⟩ := exists_of_unifyBreaks hinside
  obtain ⟨closing, behind, rfl, hclosing, rfl⟩ := exists_of_unifyBreaks hend
  obtain rfl := eq_of_unifyBreaks hopening (by decide)
  obtain rfl := eq_of_unifyBreaks hclosing (by decide)
  refine ⟨before, body, behind, ⟨rfl, ?_, ?_⟩, (inked_unifyBreaks body).symm⟩
  · rw [placeOf, unifyBreaks_append (.inr (by decide))]
    exact hopens
  · rw [placeOf, unifyBreaks_append (.inr (by simp)), unifyBreaks_append (.inl (by decide)),
      unifyBreaks_append (.inr (by decide))]
    exact hcloses

namespace Lexeme

/-- Both marks can be taken off a text that has them, if they do not overlap. -/
theorem blockBody?_eq (body : List Char) :
    blockBody? (['/', '*'] ++ (body ++ ['*', '/'])) = some body := by
  simp [blockBody?, List.isPrefixOf?, List.isSuffixOf?]

end Lexeme

/-- A token that closes a comment has the mark at its end. -/
theorem exists_of_closesComment (h : closesComment token = true) :
    token.isLineEnd = false ∧ ∃ last, token.lexeme.toList = last ++ ['*', '/'] := by
  rw [closesComment, Bool.and_eq_true, Lexeme.closesBlockComment, Bool.and_eq_true] at h
  obtain ⟨last, hlast⟩ := List.isSuffixOf_iff_suffix.1 h.2.1
  exact ⟨by simpa using h.1, last, hlast.symm⟩

variable {opener : Token} {past others : List Token}

/-- The text of a comment is what it is put together from, without the marks. -/
theorem toList_blockCommentText {inner : List Char}
    (h : others.foldl joinToken opener.lexeme.toList = ['/', '*'] ++ (inner ++ ['*', '/'])) :
    (blockCommentText opener others).toList = trim inner := by
  rw [blockCommentText, h, Lexeme.blockBody?_eq, Option.getD_some, String.toList_ofList]

namespace Grammar.Line

theorem eq_commentNode (h : Line (.comment .block) (opener :: others) node) :
    node = commentNode .block (blockCommentText opener others) := by
  cases h <;> rfl

/-- **The text that is put together has both marks**, and they do not overlap. -/
theorem exists_inner (h : Line (.comment .block) (opener :: others) node)
    (hregular : ∀ word ∈ others, word.Regular) :
    ∃ inner, others.foldl joinToken opener.lexeme.toList = ['/', '*'] ++ (inner ++ ['*', '/']) := by
  cases h with
  | shortComment hopens hcloses => exact Lexeme.exists_body hopens hcloses
  | @blockComment _ closer inside hopens _ _ hcloses =>
    obtain ⟨first, hfirst⟩ := Lexeme.exists_of_slash hopens
    obtain ⟨hend, last, hlast⟩ := exists_of_closesComment hcloses
    obtain ⟨added, hadded, -⟩ := exists_foldl_joinToken
      (fun word hword => hregular word (List.mem_append_left _ hword)) opener.lexeme.toList
    obtain ⟨gap, hgap⟩ := exists_joinToken_of_word (opener.lexeme.toList ++ added) hend
    refine ⟨first ++ added ++ gap ++ last, ?_⟩
    rw [List.foldl_append, hadded, List.foldl_cons, List.foldl_nil, hgap, hfirst, hlast]
    simp

/-- **The comment in the text that its tokens are laid over.** -/
theorem exists_between (h : Line (.comment .block) (opener :: others) node)
    (hlaid : Laid position text (past ++ (opener :: others ++ rest))) :
    ∃ before body behind, text = before ++ (['/', '*'] ++ (body ++ (['*', '/'] ++ behind))) ∧
      (before ++ ['/']).foldl Position.after position = opener.position ∧
      (before ++ (['/', '*'] ++ (body ++ ['*', '/']))).foldl Position.after position =
        (others.getLastD opener).lastPlace ∧
      inked (['/', '*'] ++ (body ++ ['*', '/'])) = inkedWords (opener :: others) := by
  rw [List.cons_append] at hlaid
  obtain ⟨c, chars, before, behind, hlexeme, rfl, -, hopens, hends, hbehind⟩ := hlaid.at_token
  cases h with
  | shortComment hopener hcloser =>
    obtain ⟨body, hbody⟩ := Lexeme.exists_body hopener hcloser
    rw [hbody] at hlexeme hends
    obtain ⟨rfl, -⟩ := List.cons.inj hlexeme
    refine ⟨before, body, behind, by simp [hbody], hopens, hends, ?_⟩
    rw [inkedWords_cons, hbody, inkedWords_nil, List.append_nil]
  | @blockComment _ closer inside hopener _ _ hcloser =>
    obtain ⟨first, hfirst⟩ : ∃ first, opener.lexeme.toList = ['/', '*'] ++ first :=
      Lexeme.exists_of_slash hopener
    obtain ⟨-, last, hlast⟩ := exists_of_closesComment hcloser
    rw [hfirst] at hlexeme hends
    obtain ⟨rfl, -⟩ := List.cons.inj hlexeme
    rw [List.append_assoc] at hbehind
    obtain ⟨-, -, middle, behind, -, rfl, hmiddle, -, hcloses, -⟩ := hbehind.at_token
    refine ⟨before, first ++ (middle ++ last), behind, by simp [hfirst, hlast], hopens, ?_, ?_⟩
    · rw [List.getLastD_concat, ← hcloses, ← hends, hlast, ← List.foldl_append]
      simp
    · simp only [inkedWords_cons, inkedWords_append, inkedWords_nil, inked_append, hfirst, hlast,
        hmiddle, List.append_assoc, List.append_nil]

end Grammar.Line

/-- A block comment that is read is one of the grammar. -/
theorem Statement.exists_line {tape : Tape}
    (h : ((comment .block).read tape).node = some node) :
    ∃ opener others, tape.rest = opener :: others ++ ((comment .block).read tape).tape.rest ∧
      Grammar.Line (.comment .block) (opener :: others) node := by
  rw [read] at h ⊢
  cases hstart : (comment .block).start tape with
  | error diagnostic after => simp [hstart] at h
  | ok reading after =>
    obtain ⟨words, htape, -, hyields⟩ := exists_yields hstart
    obtain ⟨found, rfl, hfound⟩ := Grammar.whole_of_yields hyields
    have hline := Grammar.blockComment_of_yields hfound
    rw [hstart] at h
    obtain rfl : found = node := Option.some.inj h
    obtain ⟨opener, others, rfl⟩ : ∃ opener others, words = opener :: others := by
      cases hline <;> exact ⟨_, _, rfl⟩
    exact ⟨opener, others, congrArg Tape.rest htape, hline⟩

/-- **The text of a comment is faithful to the source.** Wherever a block comment is read among the
tokens of a source, its marks stand in the source where the first of its tokens starts and where the
last one ends. Its text and what stands between the marks are the same but for blanks. There is no
blank at either end of it, and the marks could be taken off. -/
theorem comment_text_faithful (source : String) (p : Nat) (node : Node)
    (h : ((Statement.comment .block).readAt (tokenize source) p).node = some node) :
    ∃ opener others text before body behind,
      (tokenize source).drop p =
        opener :: others ++ ((Statement.comment .block).readAt (tokenize source) p).tape.rest ∧
      node = commentNode .block text ∧
      CommentSpan source.toList opener (others.getLastD opener) before body behind ∧
      inked text.toList = inked body ∧ Unpadded text.toList ∧
      text = blockCommentText opener others ∧
      (Lexeme.blockBody? (others.foldl joinToken opener.lexeme.toList)).isSome = true := by
  obtain ⟨opener, others, hrest, hline⟩ := Statement.exists_line h
  have hdrop : (tokenize source).drop p =
      opener :: others ++ ((Statement.comment .block).readAt (tokenize source) p).tape.rest := hrest
  have hregular : ∀ word ∈ others, word.Regular := by
    intro word hword
    refine regular_tokenize source word (List.mem_of_mem_drop (i := p) ?_)
    rw [hdrop]
    exact List.mem_append_left _ (List.mem_cons_of_mem _ hword)
  have hlaid := laid_tokenize source
  rw [← List.take_append_drop p (tokenize source), hdrop] at hlaid
  obtain ⟨inner, hinner⟩ := hline.exists_inner hregular
  obtain ⟨_, middle, _, hunified, hopens, hcloses, hbetween⟩ := hline.exists_between hlaid
  obtain ⟨before, body, behind, hspan, hbody⟩ := exists_commentSpan hunified hopens hcloses
  have hinked : inked inner = inked middle := by
    -- both are the words of the comment, and both have the marks at their ends
    have hwords := (inked_foldl_joinToken hregular opener.lexeme.toList).trans hbetween.symm
    rw [hinner] at hwords
    simpa only [inked_append, List.append_cancel_left_eq, List.append_cancel_right_eq] using hwords
  have htext := toList_blockCommentText hinner
  refine ⟨opener, others, _, before, body, behind, hdrop, hline.eq_commentNode, hspan, ?_, ?_, rfl,
    ?_⟩
  · rw [htext, inked_trim, hinked, hbody]
  · rw [htext]
    exact unpadded_trim inner
  · rw [hinner, Lexeme.blockBody?_eq]
    rfl

/-- A comment of two lines with asterisks and slashes at its edges. The closing mark stands in the
word that opens it, and the word that is only both marks run together stands before its end. -/
def starredComment : String := "x; /**/a\r\n * b /*/ \t**/ y"

theorem comment_text_faithful_starredComment :
    ((Statement.comment .block).readAt (tokenize starredComment) 2).node =
      some (commentNode .block "*/a\n* b /*/ *") ∧
    ∃ opener closer before body behind,
      CommentSpan starredComment.toList opener closer before body behind ∧
      inked body = "*/a*b/*/*".toList := by
  have hnode : ((Statement.comment .block).readAt (tokenize starredComment) 2).node =
      some (commentNode .block "*/a\n* b /*/ *") := by decide +kernel
  obtain ⟨opener, others, text, before, body, behind, -, hcomment, hspan, hinked, -⟩ :=
    comment_text_faithful starredComment 2 _ hnode
  obtain rfl : "*/a\n* b /*/ *" = text := by simpa [commentNode, Node.leaf] using hcomment
  exact ⟨hnode, opener, _, before, body, behind, hspan, hinked.symm.trans (by decide)⟩

end ProtoSchema
