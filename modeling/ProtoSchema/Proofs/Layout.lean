import ProtoSchema.Proofs.Described
import ProtoSchema.Proofs.Lockstep
import ProtoSchema.Proofs.Spacing

/-!
# Layout means nothing

Where tokens stand on their lines, and how many blank lines there are between two lines, changes
neither the file that a text describes nor its diagnostics. Two readings of such texts are at
different places and stand before runs of line breaks of different length, and every way to pass
line breaks must bring them together again.

* `outline`: the kinds and words of tokens with every run of line breaks written once.
* `outline_dropWhile`: passing tokens up to some kind of token, in outlines.
* `Tape.SameOutline`, `Coupling.layout`: tapes with the same outline are coupled.
* `Place.SameLayout.step`: the steps of two such readings.
* `sameReading_of_layout`: whole texts.
-/

namespace ProtoSchema

open Parse

variable {tape tape' after after' : Tape} {token token' : Token} {tokens tokens' : List Token}

/-! ### Outlines -/

/-- Kinds and words with every run of line breaks written once. -/
def collapseBreaks : List (TokenKind × String) → List (TokenKind × String)
  | [] => []
  | shape :: rest =>
    if shape.1 == .lineEnd && rest.head?.any (·.1 == .lineEnd) then collapseBreaks rest
    else shape :: collapseBreaks rest

/-- The kinds and words of tokens, with every run of line breaks written once. -/
def outline (tokens : List Token) : List (TokenKind × String) :=
  collapseBreaks (tokens.map Token.shape)

theorem outline_cons (token : Token) (rest : List Token) :
    outline (token :: rest) =
      if token.isLineEnd && rest.head?.any Token.isLineEnd then outline rest
      else token.shape :: outline rest := by
  have hhead : ((rest.map Token.shape).head?.any fun shape => shape.1 == .lineEnd) =
      rest.head?.any Token.isLineEnd := by
    cases rest <;> rfl
  rw [outline, List.map_cons, collapseBreaks, hhead]
  rfl

/-- Two line breaks in a row are written like one. -/
theorem collapseBreaks_append (shapes others : List (TokenKind × String)) :
    collapseBreaks (shapes ++ (.lineEnd, "\n") :: (.lineEnd, "\n") :: others) =
      collapseBreaks (shapes ++ (.lineEnd, "\n") :: others) := by
  induction shapes with
  | nil =>
    rw [List.nil_append, collapseBreaks]
    rfl
  | cons shape rest ih =>
    have hhead : (rest ++ (TokenKind.lineEnd, "\n") :: (.lineEnd, "\n") :: others).head? =
        (rest ++ (.lineEnd, "\n") :: others).head? := by
      cases rest <;> rfl
    rw [List.cons_append, List.cons_append, collapseBreaks, collapseBreaks, hhead, ih]

theorem outline_of_word (h : token.isLineEnd = false) :
    outline (token :: tokens) = token.shape :: outline tokens := by
  rw [outline_cons, h]
  rfl

/-- The line breaks of a text all look the same. -/
theorem Token.Regular.shape_of_isLineEnd (hregular : token.Regular)
    (h : token.isLineEnd = true) : token.shape = (.lineEnd, "\n") := by
  rw [shape, hregular.lexeme_of_isLineEnd h]
  rw [isLineEnd, beq_iff_eq] at h
  rw [h]

/-- An outline starts with what its tokens start with. -/
theorem head?_outline (hregular : ∀ token ∈ tokens, token.Regular) :
    (outline tokens).head? = tokens.head?.map Token.shape := by
  induction tokens with
  | nil => rfl
  | cons token rest ih =>
    rw [List.forall_mem_cons] at hregular
    rw [outline_cons]
    split
    · rename_i hbreaks
      rw [Bool.and_eq_true] at hbreaks
      rw [ih hregular.2]
      -- the break that is left out looks like the one behind it
      cases rest with
      | nil => cases hbreaks.2
      | cons next others =>
        have hnext := (hregular.2 next List.mem_cons_self).shape_of_isLineEnd hbreaks.2
        have htoken := hregular.1.shape_of_isLineEnd hbreaks.1
        simp [hnext, htoken]
    · rfl

/-- An outline ends with what its tokens end with. -/
theorem getLast?_outline (tokens : List Token) :
    (outline tokens).getLast? = tokens.getLast?.map Token.shape := by
  induction tokens with
  | nil => rfl
  | cons token rest ih =>
    cases rest with
    | nil => simp [outline, collapseBreaks]
    | cons next others =>
      rw [outline_cons, List.getLast?_cons_cons, ← ih]
      split
      · rfl
      · cases houtline : outline (next :: others) with
        | nil => simp [houtline, List.getLast?_cons] at ih
        | cons first more => rw [List.getLast?_cons_cons]

/-- **Passing tokens in outlines.** A test that does not depend on places stops at the same token of
an outline. -/
theorem outline_dropWhile {test : Token → Bool} (tested : TokenKind × String → Bool)
    (htest : ∀ token, test token = tested token.shape)
    (hregular : ∀ token ∈ tokens, token.Regular) :
    outline (tokens.dropWhile test) = (outline tokens).dropWhile tested := by
  induction tokens with
  | nil => rfl
  | cons token rest ih =>
    rw [List.forall_mem_cons] at hregular
    have hrest := ih hregular.2
    -- either the first token is left out of the outline, or it is the first there too
    by_cases hbreaks : (token.isLineEnd && rest.head?.any Token.isLineEnd) = true
    · have houtline : outline (token :: rest) = outline rest := by
        rw [outline_cons, if_pos hbreaks]
      rw [houtline, ← hrest]
      rw [Bool.and_eq_true] at hbreaks
      cases rest with
      | nil => cases hbreaks.2
      | cons next others =>
        have hsame : test next = test token := by
          rw [htest, htest, hregular.1.shape_of_isLineEnd hbreaks.1,
            (hregular.2 next List.mem_cons_self).shape_of_isLineEnd hbreaks.2]
        cases hpass : test token with
        | true => rw [List.dropWhile_cons_of_pos hpass]
        | false =>
          rw [List.dropWhile_cons_of_neg (by simp [hpass]),
            List.dropWhile_cons_of_neg (by simp [hsame, hpass]), houtline]
    · have houtline : outline (token :: rest) = token.shape :: outline rest := by
        rw [outline_cons, if_neg hbreaks]
      cases hpass : test token with
      | true =>
        rw [List.dropWhile_cons_of_pos hpass, hrest, houtline,
          List.dropWhile_cons_of_pos (by rw [← htest, hpass])]
      | false =>
        rw [List.dropWhile_cons_of_neg (by simp [hpass]), houtline,
          List.dropWhile_cons_of_neg (by rw [← htest, hpass]; simp)]

/-! ### Tapes with the same outline -/

/-- The tokens to come have the same outline, and the last tokens look the same. -/
structure Tape.SameOutline (tape tape' : Tape) : Prop where
  regular : ∀ token ∈ tape.rest, token.Regular
  regular' : ∀ token ∈ tape'.rest, token.Regular
  outline : outline tape'.rest = outline tape.rest
  last : tape'.tokens.getLast?.map Token.shape = tape.tokens.getLast?.map Token.shape

namespace Tape

namespace SameOutline

/-- Passing tokens does not change the last one. -/
theorem reaches (h : tape.SameOutline tape') (hreach : tape.Reaches after)
    (hreach' : tape'.Reaches after')
    (houtline : ProtoSchema.outline after'.rest = ProtoSchema.outline after.rest) :
    after.SameOutline after' where
  regular := Frame.regular_of_reaches hreach h.regular
  regular' := Frame.regular_of_reaches hreach' h.regular'
  outline := houtline
  last := by rw [hreach.tokens_eq, hreach'.tokens_eq, h.last]

theorem peek?_eq (h : tape.SameOutline tape') :
    tape'.peek?.map Token.shape = tape.peek?.map Token.shape := by
  rw [peek?, peek?, ← head?_outline h.regular, ← head?_outline h.regular', h.outline]

theorem exists_peek? (h : tape.SameOutline tape') (hpeek : tape.peek? = some token) :
    ∃ token', tape'.peek? = some token' ∧ token'.shape = token.shape := by
  have hshape := h.peek?_eq
  rw [hpeek] at hshape
  exact Option.map_eq_some_iff.1 hshape

/-- A token that is no line break is passed on both tapes. -/
theorem advance (h : tape.SameOutline tape') (hpeek : tape.peek? = some token)
    (htoken : token.isLineEnd = false) : tape.advance.SameOutline tape'.advance := by
  obtain ⟨token', hpeek', hshape⟩ := h.exists_peek? hpeek
  have htoken' : token'.isLineEnd = false := by
    rw [Token.isLineEnd, show token'.kind = token.kind from congrArg Prod.fst hshape]
    exact htoken
  refine h.reaches tape.reaches_advance tape'.reaches_advance ?_
  have houtline := h.outline
  rw [Frame.rest_of_peek? hpeek, Frame.rest_of_peek? hpeek', outline_of_word htoken,
    outline_of_word htoken'] at houtline
  exact (List.cons.inj houtline).2

/-- A run of tokens is passed on both tapes. -/
theorem skipWhile (h : tape.SameOutline tape') {test : Token → Bool}
    (htest : ∀ (token : Token) (position : Position),
      test { token with position := position } = test token) :
    (tape.skipWhile test).SameOutline (tape'.skipWhile test) := by
  have hpassed : ∀ {tokens : List Token}, (∀ token ∈ tokens, token.Regular) →
      ProtoSchema.outline (tokens.dropWhile test) = (ProtoSchema.outline tokens).dropWhile
        fun shape => test ⟨shape.1, .start, shape.2⟩ :=
    outline_dropWhile _ fun token => (htest token .start).symm
  refine h.reaches (tape.reaches_skipWhile test) (tape'.reaches_skipWhile test) ?_
  rw [Tape.skipWhile, Tape.skipWhile, hpassed h.regular, hpassed h.regular', h.outline]

theorem skipBreaks (h : tape.SameOutline tape') :
    tape.skipBreaks.SameOutline tape'.skipBreaks :=
  h.skipWhile fun _ _ => rfl

/-- The line that is passed ends with a run of line breaks on both tapes. -/
theorem skipLine (h : tape.SameOutline tape') :
    tape.skipLine.skipBreaks.SameOutline tape'.skipLine.skipBreaks := by
  rw [skipBreaks_skipLine, skipBreaks_skipLine]
  exact (h.skipWhile fun _ _ => rfl).skipBreaks

theorem nearest (h : tape.SameOutline tape') :
    tape'.nearest.shape = tape.nearest.shape := by
  have hpeek := h.peek?_eq
  cases hnext : tape.peek? with
  | some token =>
    obtain ⟨token', hnext', hshape⟩ := h.exists_peek? hnext
    simpa [Tape.nearest, hnext, hnext'] using hshape
  | none =>
    -- at the end the nearest token is the last one
    rw [hnext, Option.map_none, Option.map_eq_none_iff] at hpeek
    have hlast := h.last
    rw [tokens, tokens, rest_of_peek?_eq_none hnext, rest_of_peek?_eq_none hpeek, List.append_nil,
      List.append_nil, List.getLast?_reverse, List.getLast?_reverse] at hlast
    rw [Tape.nearest, Tape.nearest, hnext, hpeek, Option.none_or, Option.none_or]
    cases hseen : tape.seen.head? with
    | none =>
      rw [hseen, Option.map_none, Option.map_eq_none_iff] at hlast
      rw [hlast]
    | some token =>
      rw [hseen] at hlast
      obtain ⟨token', hseen', hshape⟩ := Option.map_eq_some_iff.1 hlast
      rw [hseen']
      exact hshape

/-- A comment ends on both tapes or on none. -/
theorem afterComment? (h : tape.SameOutline tape') (hpeek : tape.peek? = some token)
    (htoken : token.isLineEnd = false) (hshape : token'.shape = token.shape)
    (mark : OpenComment) :
    Option.Rel SameOutline (tape.afterComment? token mark) (tape'.afterComment? token' mark) := by
  have hadvance := h.advance hpeek htoken
  cases mark with
  | line =>
    have hskip := @skipWhile _ _ hadvance (!·.isLineEnd) fun _ _ => rfl
    exact .some hskip
  | block =>
    have hlexeme : token'.lexeme = token.lexeme := congrArg Prod.snd hshape
    unfold Tape.afterComment?
    rw [hlexeme]
    cases Lexeme.closesBlockComment token.lexeme with
    | true => exact .some hadvance
    | false =>
      have hskip := @skipWhile _ _ hadvance (!closesComment ·) fun _ _ => rfl
      cases hcloser : (tape.advance.skipWhile (!closesComment ·)).peek? with
      | none =>
        have hnone := hskip.peek?_eq
        rw [hcloser, Option.map_none, Option.map_eq_none_iff] at hnone
        simp only [hcloser, hnone, Option.map_none]
        exact .none
      | some closer =>
        obtain ⟨closer', hcloser', -⟩ := hskip.exists_peek? hcloser
        have hcloses : closesComment closer = true := by
          have hnext := next_dropWhile (!closesComment ·) tape.advance.rest closer hcloser
          simpa using hnext
        rw [closesComment, Bool.and_eq_true, Bool.not_eq_true'] at hcloses
        simp only [hcloser, hcloser', Option.map_some]
        exact .some (hskip.advance hcloser hcloses.1)

end SameOutline

end Tape

/-- Tapes with the same outline are coupled, and tokens that look the same. -/
def Coupling.layout : Coupling where
  rel := Tape.SameOutline
  twin token token' := token'.shape = token.shape
  opened := Tape.SameOutline
  passes token := token.isLineEnd = false
  kept _ := True
  kept_of_reaches _ _ := trivial
  twin_eq {token token'} h := by
    obtain ⟨kind, position, lexeme⟩ := token
    obtain ⟨kind', position', lexeme'⟩ := token'
    cases h
    exact ⟨position', rfl⟩
  peek {tape tape'} h := by
    cases hpeek : tape.peek? with
    | none =>
      have hnone := h.peek?_eq
      rw [hpeek, Option.map_none, Option.map_eq_none_iff] at hnone
      rw [hnone]
      exact .none
    | some token =>
      obtain ⟨token', hpeek', hshape⟩ := h.exists_peek? hpeek
      rw [hpeek']
      exact .some hshape
  nearest h := h.nearest
  advance h hpeek hpasses _ := h.advance hpeek hpasses
  opens {tape tape' token} h hpeek hbrace _ := by
    have hregular := h.regular token (List.mem_of_head? hpeek)
    exact h.advance hpeek (hregular.isLineEnd_of_isMark hbrace)
  skipBreaks h _ := h.skipBreaks
  stream _ _ _ := trivial
  passes_of_inner {tape tape' token} h hpeek hinner :=
    (hinner (h.regular token (List.mem_of_head? hpeek))).lineEnd

/-! ### Places and whole texts -/

namespace Place

variable {place place' : Place}

/-- Places that are alike, before tokens with the same outline. -/
structure SameLayout (place place' : Place) : Prop extends Like place place' where
  tape : place.tape.skipBreaks.SameOutline place'.tape.skipBreaks

theorem sameOutline_of_resumes (h : Coupling.layout.Resumes tape tape') :
    tape.skipBreaks.SameOutline tape'.skipBreaks := by
  cases h with
  | rel h => exact Tape.SameOutline.skipBreaks h
  | opened h => exact Tape.SameOutline.skipBreaks h
  | line h => exact Tape.SameOutline.skipLine h

/-- A comment is passed in both readings, or it ends in none. -/
theorem SameLayout.comment (h : place.SameLayout place') {mark : OpenComment}
    (hpeek : place.tape.skipBreaks.peek? = some token)
    (hpeek' : place'.tape.skipBreaks.peek? = some token') (hshape : token'.shape = token.shape)
    (hstatement : place.scope.statement? token.lexeme = some (.comment mark)) :
    (place.proceed token place.tape.skipBreaks).SameLayout
      (place'.proceed token' place'.tape.skipBreaks) := by
  have hregular := h.tape.regular token (List.mem_of_head? hpeek)
  have hregular' := h.tape.regular' token' (List.mem_of_head? hpeek')
  have hstatement' : place'.scope.statement? token'.lexeme = some (.comment mark) := by
    rw [h.toLike.scope, show token'.lexeme = token.lexeme from congrArg Prod.snd hshape]
    exact hstatement
  have hlineEnd := Grammar.isLineEnd_of_statement? hregular hstatement
  have hreach := place.reaches_proceed token place.tape.skipBreaks
  have hreach' := place'.reaches_proceed token' place'.tape.skipBreaks
  -- a comment that ends in one reading only is against `hends`
  have hends := h.tape.afterComment? hpeek hlineEnd hshape mark
  rcases proceed_comment hregular hpeek hstatement with
    ⟨after, node, hafter, hkind, hnext⟩ | ⟨hafter, after, hrest, hnext⟩ <;>
  rcases proceed_comment hregular' hpeek' hstatement' with
    ⟨after', node', hafter', hkind', hnext'⟩ | ⟨hafter', after', hrest', hnext'⟩ <;>
  rw [hafter, hafter'] at hends
  · rw [hnext, hnext']
    cases hends with
    | some hends =>
      refine ⟨h.toLike.add ?_, ?_⟩
      · rw [Node.withoutCommentsAll_of_comment hkind, Node.withoutCommentsAll_of_comment hkind']
      · simpa using hends.skipBreaks
  · cases hends
  · cases hends
  · rw [hnext] at hreach
    rw [hnext'] at hreach'
    rw [hnext, hnext']
    refine ⟨h.toLike.abandon hshape, ?_⟩
    refine (h.tape.reaches hreach hreach' ?_).skipBreaks
    simp only [abandon, hrest, hrest']

/-- **One step of two readings that differ in layout.** -/
theorem SameLayout.step (h : place.SameLayout place') :
    (place.step = none ∧ place'.step = none) ∨
      ∃ next next', place.step = some next ∧ place'.step = some next' ∧
        next.SameLayout next' := by
  cases hpeek : place.tape.skipBreaks.peek? with
  | none =>
    have hpeek' := h.tape.peek?_eq
    rw [hpeek, Option.map_none, Option.map_eq_none_iff] at hpeek'
    have hblocks := h.blocks
    cases hbelow : place.blocks with
    | nil =>
      rw [hbelow, List.forall₂_nil_left_iff] at hblocks
      exact .inl ⟨by simp only [Place.step, hpeek, hbelow],
        by simp only [Place.step, hpeek', hblocks]⟩
    | cons top below =>
      rw [hbelow] at hblocks
      obtain ⟨top', below', htop, -, hblocks'⟩ := List.forall₂_cons_left_iff.1 hblocks
      refine .inr ⟨_, _, by simp only [Place.step, hpeek, hbelow]; rfl,
        by simp only [Place.step, hpeek', hblocks', htop.scope]; rfl, ?_⟩
      exact ⟨h.toLike.abandon htop.opener, h.tape.skipBreaks⟩
  | some token =>
    obtain ⟨token', hpeek', hshape⟩ := h.tape.exists_peek? hpeek
    refine .inr ⟨_, _, step_of_peek? hpeek, step_of_peek? hpeek', ?_⟩
    by_cases hcomment : ∃ mark, place.scope.statement? token.lexeme = some (.comment mark)
    · obtain ⟨mark, hmark⟩ := hcomment
      exact h.comment hpeek hpeek' hshape hmark
    · have hregular := h.tape.regular token (List.mem_of_head? hpeek)
      have hcloser : token.isMark .closeBrace = true → Coupling.layout.passes token :=
        fun hmark => hregular.isLineEnd_of_isMark hmark
      obtain ⟨hlike, hresumes⟩ := h.toLike.proceed (fun _ => trivial) h.tape hregular hpeek hcloser
        hshape (fun mark hmark => hcomment ⟨mark, hmark⟩)
      exact ⟨hlike, sameOutline_of_resumes hresumes⟩

end Place

namespace Tree

/-- Readings that come to places before the same layout end with trees that are alike. -/
theorem alike_of_sameLayout {place place' : Place} (hsteps : (Place.start tokens).Steps place)
    (hsteps' : (Place.start tokens').Steps place') (h : place.SameLayout place') :
    (ofTokens tokens').root.withoutComments = (ofTokens tokens).root.withoutComments ∧
      List.Forall₂ Diagnostic.Like (ofTokens tokens).errors (ofTokens tokens').errors := by
  obtain ⟨last, hrun, hend, htree⟩ := exists_run tokens
  obtain ⟨last', hrun', hend', htree'⟩ := exists_run tokens'
  have hsame := Place.exists_steps (fun h => h.step) h (hrun.of_steps hend hsteps) hend
    (hrun'.of_steps hend' hsteps') hend'
  rw [← htree, ← htree']
  exact ⟨hsame.root, hsame.errors⟩

theorem alike_ofTokens (hregular : ∀ token ∈ tokens, token.Regular)
    (hregular' : ∀ token ∈ tokens', token.Regular) (h : outline tokens' = outline tokens) :
    (ofTokens tokens').root.withoutComments = (ofTokens tokens).root.withoutComments ∧
      List.Forall₂ Diagnostic.Like (ofTokens tokens).errors (ofTokens tokens').errors := by
  have hstart : (Tape.ofTokens tokens).SameOutline (.ofTokens tokens') :=
    ⟨hregular, hregular', h, by
      have houtline := getLast?_outline tokens
      rw [← h, getLast?_outline] at houtline
      exact houtline⟩
  exact alike_of_sameLayout .refl .refl ⟨⟨.nil, rfl, .nil⟩, hstart.skipBreaks⟩

end Tree

theorem Diagnostic.Like.message {diagnostic diagnostic' : Diagnostic}
    (h : diagnostic.Like diagnostic') : diagnostic'.message = diagnostic.message := by
  obtain ⟨problem, kind, position, lexeme⟩ := diagnostic
  obtain ⟨problem', kind', position', lexeme'⟩ := diagnostic'
  obtain ⟨rfl, hshape⟩ := h
  cases hshape
  rfl

/-- Two texts describe the same file, and their diagnostics agree one by one in weight, message and
word. -/
def SameReading (source source' : String) : Prop :=
  ∃ file errors errors', parse source = .ok ⟨file, errors⟩ ∧
    parse source' = .ok ⟨file, errors'⟩ ∧
    List.Forall₂ (fun diagnostic diagnostic' : Diagnostic =>
      diagnostic'.isFatal = diagnostic.isFatal ∧ diagnostic'.message = diagnostic.message ∧
        diagnostic'.token.lexeme = diagnostic.token.lexeme) errors errors'

/-- Trees that are alike describe the same file, and their diagnostics read alike. -/
theorem sameReading_of_alike {source source' : String}
    (h : (Tree.ofSource source').root.withoutComments =
        (Tree.ofSource source).root.withoutComments ∧
      List.Forall₂ Diagnostic.Like (Tree.ofSource source).errors (Tree.ofSource source').errors) :
    SameReading source source' := by
  obtain ⟨hroot, herrors⟩ := h
  obtain ⟨file, hfile, -⟩ := (Tree.block_ofTokens (tokenize source)).file
  rw [← Tree.ofSource] at hfile
  have hfile' : File.ofNode (Tree.ofSource source').root = .ok file := by
    rw [← File.ofNode_withoutComments, hroot, File.ofNode_withoutComments, hfile]
  refine ⟨file, _, _, ?_, ?_, herrors.imp fun diagnostic diagnostic' hlike =>
    ⟨?_, hlike.message, congrArg Prod.snd hlike.2⟩⟩
  · rw [parse, hfile]
    rfl
  · rw [parse, hfile']
    rfl
  · rw [Diagnostic.isFatal, Diagnostic.isFatal, hlike.1]

theorem sameReading_of_outline {source source' : String}
    (h : outline (tokenize source') = outline (tokenize source)) : SameReading source source' :=
  sameReading_of_alike (Tree.alike_ofTokens (regular_tokenize source) (regular_tokenize source') h)

/-- **Layout means nothing.** Texts whose tokens have the same outline describe the same file, and
their diagnostics agree one by one. So blanks may be put in beside a blank, a mark or a line break
outside literals, and blank lines behind a line feed. -/
theorem sameReading_of_layout :
    (∀ source source' : String, outline (tokenize source') = outline (tokenize source) →
      SameReading source source') ∧
    (∀ before gaps after : String, (∀ c ∈ gaps.toList, Lexer.isGap c = true) →
      (Lexer.ofText before).inLiteral = false →
      (before.toList.getLast? ≠ some '\r' ∨ after.toList.head? ≠ some '\n') →
      ((Lexer.ofText before).word = none ∨ Lexer.endsWord after.toList = true) →
      SameReading (before ++ after) (before ++ (gaps ++ after))) ∧
    ∀ before after : String, before.toList.getLast? = some '\n' →
      SameReading (before ++ after) (before ++ ("\n" ++ after)) := by
  refine ⟨fun source source' h => sameReading_of_outline h, ?_, ?_⟩
  · intro before gaps after hgaps hliteral hplace hword
    refine sameReading_of_outline ?_
    rw [outline, outline, map_shape_tokenize_gaps hgaps hliteral hplace hword]
  · intro before after hbreak
    obtain ⟨shapes, others, htokens, htokens'⟩ := map_shape_tokenize_break hbreak after
    refine sameReading_of_outline ?_
    rw [outline, outline, htokens, htokens', collapseBreaks_append]

/-- A message on few lines, with two faults, a comment over two lines and options over two. -/
def tightMessage : String :=
  "message M\x7bint32 a=1[x=1,\ny=2];/* a\nb */\nbad;\nint32 c=0;\n\x7d"

/-- The same message with blank lines, and with blanks around every mark. -/
def wideMessage : String :=
  "message  M \x7b int32 a = 1 [ x = 1 ,\n\n\n  y = 2 ] ;  /*   a\n\n   b   */\r\n" ++
    "\n  bad ;\n \n\n  int32 c = 0 ;\n\n\x7d"

/-- The comments differ, and with them the trees; the files do not, nor do the two diagnostics. A
field may be indented, and a blank line may precede it. -/
theorem sameReading_of_layout_wideMessage :
    (Tree.ofSource wideMessage).root ≠ (Tree.ofSource tightMessage).root ∧
      (Tree.ofSource tightMessage).errors.length = 2 ∧ SameReading tightMessage wideMessage ∧
      SameReading ("message M \x7b\n" ++ "int32 a = 1;\x7d")
        ("message M \x7b\n" ++ (" \t" ++ "int32 a = 1;\x7d")) ∧
      SameReading ("message M \x7b\n" ++ "int32 a = 1;\x7d")
        ("message M \x7b\n" ++ ("\n" ++ "int32 a = 1;\x7d")) := by
  refine ⟨by decide +kernel, by decide +kernel, ?_, ?_, ?_⟩
  · exact sameReading_of_layout.1 tightMessage wideMessage (by decide +kernel)
  · have hgaps : ∀ c ∈ " \t".toList, Lexer.isGap c = true := List.all_eq_true.1 (by decide +kernel)
    exact sameReading_of_layout.2.1 _ " \t" _ hgaps (by decide +kernel)
      (.inl (by decide +kernel)) (.inl (by decide +kernel))
  · exact sameReading_of_layout.2.2 _ _ (by decide +kernel)

end ProtoSchema
