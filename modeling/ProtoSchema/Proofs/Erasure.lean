import ProtoSchema.Proofs.Language
import ProtoSchema.Proofs.Tiling
import ProtoSchema.Proofs.Uncommented

/-!
# Comments can be erased

Comments are found twice: while words are cut from the text, where an open comment decides whether a
quote starts a literal, and while statements are read, where a comment is a statement of its own.
The two agree on every text that is read without an error. So the tokens of its comments may be
deleted, line breaks kept, and what is read then is the same tree without its comments.

* `eraseComments`: the tokens that the tracking of comments leaves, and all line breaks.
* `Lexer.comment_feed`: the tracking is that of the lexer.
* `Grammar.Line.bare`: no statement but a comment has a token that opens one.
* `Grammar.Members.erase`: statements in a row without their comments, bodies included.
* `Tree.ofTokens_eraseComments`: whole texts.
-/

namespace ProtoSchema

/-! ### Tracking comments from token to token -/

namespace OpenComment

/-- The comment that is open after a token. -/
def afterToken (comment : Option OpenComment) (token : Token) : Option OpenComment :=
  if token.isLineEnd then afterLine comment else afterWord comment token.lexeme

/-- The comment that is open after tokens in a row. -/
def afterTokens (comment : Option OpenComment) (tokens : List Token) : Option OpenComment :=
  tokens.foldl afterToken comment

@[simp] theorem afterTokens_nil (comment : Option OpenComment) : afterTokens comment [] = comment :=
  rfl

@[simp] theorem afterTokens_cons (comment : Option OpenComment) (token : Token)
    (rest : List Token) :
    afterTokens comment (token :: rest) = afterTokens (afterToken comment token) rest := rfl

@[simp] theorem afterTokens_append (comment : Option OpenComment) (first second : List Token) :
    afterTokens comment (first ++ second) = afterTokens (afterTokens comment first) second :=
  List.foldl_append

/-- A mark neither opens nor closes a comment. -/
theorem afterWord_singleton {c : Char} (h : isPunctuation c = true)
    (comment : Option OpenComment) : afterWord comment (String.singleton c) = comment := by
  obtain ⟨mark, rfl⟩ := (isPunctuation_iff c).1 h
  rcases comment with _ | (_ | _) <;> cases mark <;> decide

end OpenComment

open OpenComment

namespace Lexer

variable (lexer : Lexer)

theorem comment_flush : lexer.flush.2.comment = afterTokens lexer.comment lexer.flush.1 := by
  unfold flush
  split
  · rfl
  · rename_i word _
    rw [afterTokens_cons, afterToken, Token.isLineEnd_ofLexeme]
    rfl

theorem comment_step (c : Char) (position : Position) :
    (lexer.step c position).2.comment = afterTokens lexer.comment (lexer.step c position).1 := by
  have hextend : (lexer.extend c position).comment = lexer.comment := by
    unfold extend
    split <;> rfl
  unfold step
  split
  · rw [afterTokens_append, ← comment_flush]
    rfl
  · split
    · exact hextend
    · split
      · exact lexer.comment_flush
      · split
        · rename_i hmark
          rw [afterTokens_append, ← comment_flush]
          exact (afterWord_singleton hmark _).symm
        · exact hextend

/-- **The lexer tracks comments from token to token.** -/
theorem comment_feed (characters : List (Char × Position)) :
    (lexer.feed characters).2.comment = afterTokens lexer.comment (lexer.feed characters).1 := by
  induction characters generalizing lexer with
  | nil => rfl
  | cons character rest ih =>
    rw [feed, afterTokens_append, ← comment_step]
    exact ih _

end Lexer

/-- Whether a token belongs to a comment: one is open, or the token opens one. Line breaks do not
belong to comments. -/
def Token.inComment (comment : Option OpenComment) (token : Token) : Bool :=
  !token.isLineEnd && (comment.isSome || Lexeme.opensLineComment token.lexeme ||
    Lexeme.opensBlockComment token.lexeme)

/-- A token that belongs to no comment opens none. -/
theorem Token.afterToken_of_inComment {token : Token} (h : token.inComment none = false) :
    afterToken none token = none := by
  rw [afterToken]
  by_cases hend : token.isLineEnd = true
  · rw [if_pos hend]
    rfl
  · simp only [inComment, hend, Option.isSome_none, Bool.not_false, Bool.true_and,
      Bool.false_or, Bool.or_eq_false_iff] at h
    simp [hend, afterWord, h]

/-- What does not close a block comment leaves it open. -/
theorem Token.afterToken_of_closesComment {token : Token} (h : Parse.closesComment token = false) :
    afterToken (some .block) token = some .block := by
  by_cases hend : token.isLineEnd = true
  · simp [afterToken, hend, afterLine]
  · simp only [Parse.closesComment, hend, Bool.not_false, Bool.true_and] at h
    simp [afterToken, hend, afterWord, h]

/-- The tokens that belong to no comment, given which one is open before them. -/
def eraseComments (comment : Option OpenComment) : List Token → List Token
  | [] => []
  | token :: rest =>
    if token.inComment comment then eraseComments (afterToken comment token) rest
    else token :: eraseComments (afterToken comment token) rest

theorem eraseComments_append (comment : Option OpenComment) (first second : List Token) :
    eraseComments comment (first ++ second) =
      eraseComments comment first ++ eraseComments (afterTokens comment first) second := by
  induction first generalizing comment with
  | nil => rfl
  | cons token rest ih =>
    rw [List.cons_append, eraseComments, eraseComments, ih, afterTokens_cons]
    split <;> rfl

theorem mem_of_mem_eraseComments {comment : Option OpenComment} {tokens : List Token}
    {token : Token} (h : token ∈ eraseComments comment tokens) : token ∈ tokens := by
  induction tokens generalizing comment with
  | nil => exact h
  | cons first rest ih =>
    rw [eraseComments] at h
    split at h
    · exact List.mem_cons_of_mem _ (ih h)
    · exact (List.mem_cons.1 h).elim (· ▸ List.mem_cons_self) fun h => List.mem_cons_of_mem _ (ih h)

/-- Outside comments the tokens leave others behind, and no comment is open after them. -/
structure Erases (tokens kept : List Token) : Prop where
  erase : eraseComments none tokens = kept
  closed : afterTokens none tokens = none

namespace Erases

variable {tokens others kept keptOthers : List Token} {token : Token}

theorem nil : Erases [] [] := ⟨rfl, rfl⟩

theorem append (h : Erases tokens kept) (hothers : Erases others keptOthers) :
    Erases (tokens ++ others) (kept ++ keptOthers) where
  erase := by rw [eraseComments_append, h.erase, h.closed, hothers.erase]
  closed := by rw [afterTokens_append, h.closed, hothers.closed]

/-- A token that opens no comment stays. -/
theorem cons (htoken : token.inComment none = false) (h : Erases tokens kept) :
    Erases (token :: tokens) (token :: kept) := by
  have hafter := Token.afterToken_of_inComment htoken
  refine ⟨?_, ?_⟩
  · rw [eraseComments, htoken, hafter, h.erase]
    rfl
  · rw [afterTokens_cons, hafter, h.closed]

theorem self (htokens : ∀ token ∈ tokens, token.inComment none = false) : Erases tokens tokens := by
  induction tokens with
  | nil => exact nil
  | cons token rest ih =>
    rw [List.forall_mem_cons] at htokens
    exact cons htokens.1 (ih htokens.2)

end Erases

/-! ### Trees that have no comments -/

/-- There is no comment among the nodes and below them. -/
def Node.Uncommented (nodes : List Node) : Prop := Node.withoutCommentsAll nodes = nodes

namespace Node

@[simp] theorem uncommented_nil : Uncommented [] := by
  rw [Uncommented, withoutCommentsAll]

@[simp] theorem uncommented_cons {node : Node} {rest : List Node} :
    Uncommented (node :: rest) ↔
      node.kind ≠ .comment ∧ Uncommented node.children ∧ Uncommented rest := by
  obtain ⟨kind, value, children⟩ := node
  simp only [Uncommented, withoutCommentsAll, withoutComments]
  by_cases hkind : kind = .comment
  · rw [if_pos hkind, withoutCommentsAll_eq]
    refine ⟨fun h => ?_, fun h => absurd hkind h.1⟩
    -- without the comment there are too few nodes
    have hlength := congrArg List.length h
    have hle := List.length_filter_le (fun node : Node => node.kind != .comment) rest
    rw [List.length_map, List.length_cons] at hlength
    omega
  · simp [hkind]

@[simp] theorem children_leaf (kind : Kind) (value : String) : (leaf kind value).children = [] :=
  rfl

theorem withoutCommentsAll_append (first second : List Node) :
    withoutCommentsAll (first ++ second) =
      withoutCommentsAll first ++ withoutCommentsAll second := by
  simp [withoutCommentsAll_eq]

end Node

/-! ### Statements that are no comments -/

/-- Whether the tokens of a class open no comments. -/
def Terminal.isPlain : Terminal → Bool
  | word lexeme => !Lexeme.opensLineComment lexeme && !Lexeme.opensBlockComment lexeme
  | oneofMember => false
  | _ => true

/-- A word of a class that is plain does not start like a comment. -/
theorem Terminal.not_slash_of_admits {terminal : Terminal} {token : Token} {c : Char}
    (hterminal : terminal.isPlain = true) (hc : c = '/' ∨ c = '*') (hregular : token.Regular)
    (h : terminal.admits token = true) : ['/', c].isPrefixOf token.lexeme.toList = false := by
  rw [← Bool.not_eq_true]
  intro hslash
  have hreference := Lexeme.isReference_of_slash hslash
  have hpath : Lexeme.isPath token.lexeme = false := by
    rw [← Bool.not_eq_true] at hreference ⊢
    exact fun hpath => hreference (Lexeme.isReference_of_isPath hpath)
  have hidentifier : Lexeme.isIdentifier token.lexeme = false := by
    rw [← Bool.not_eq_true] at hpath ⊢
    exact fun hidentifier => hpath (Lexeme.isPath_of_isIdentifier hidentifier)
  have hnumber : token.isNumber = false := by
    have hlexeme := Lexeme.isNumber_of_slash hslash
    rw [← Bool.not_eq_true] at hlexeme ⊢
    exact fun hnumber => hlexeme (hregular.isNumber_lexeme hnumber)
  have hmark : ∀ sign, token.isMark sign = false := by
    intro sign
    obtain ⟨rest, hlexeme⟩ := Lexeme.exists_of_slash hslash
    rw [Token.isMark, beq_eq_false_iff_ne]
    intro htext
    rw [htext, Punctuation.text_eq] at hlexeme
    simp at hlexeme
  cases terminal with
  | word word =>
    rw [← Grammar.admits_word.1 h] at hterminal
    rcases hc with rfl | rfl <;>
      simp [isPlain, Lexeme.opensLineComment, Lexeme.opensBlockComment, hslash] at hterminal
  | oneofMember => cases hterminal
  | rangeEnd =>
    simp only [admits, Lexeme.integer?_of_slash hslash, Option.isSome_none, Bool.or_false,
      beq_iff_eq] at h
    simp [h, List.isPrefixOf] at hslash
  | _ =>
    simp [admits, hmark, hidentifier, hpath, hreference, hnumber, Lexeme.isTypeName, Token.isQuoted,
      Lexeme.isQuoted_of_slash hslash, Lexeme.integer?_of_slash hslash,
      Lexeme.mapKeyOfText?_of_slash hslash] at h

namespace Grammar

open Node

variable {words : List Token} {node : Node} {nodes : List Node} {multiline : Bool}

/-- The tokens open no comments and the nodes have none. -/
structure Bare (words : List Token) (nodes : List Node) : Prop where
  plain : ∀ token ∈ words, token.Regular → token.inComment none = false
  uncommented : Uncommented nodes

theorem Bare.nil : Bare [] [] := ⟨by simp, by simp⟩

theorem Bare.append {others : List Token} {more : List Node} (h : Bare words nodes)
    (hothers : Bare others more) : Bare (words ++ others) (nodes ++ more) where
  plain := List.forall_mem_append.2 ⟨h.plain, hothers.plain⟩
  uncommented := by
    have := hothers.uncommented
    rw [Uncommented] at this ⊢
    rw [withoutCommentsAll_append, h.uncommented, this]

theorem Bare.with (h : Bare words []) (hnodes : Uncommented nodes) : Bare words nodes :=
  ⟨h.plain, hnodes⟩

theorem bare_token {token : Token} (hline : Lexeme.opensLineComment token.lexeme = false)
    (hblock : Lexeme.opensBlockComment token.lexeme = false) : Bare [token] [] := by
  refine ⟨?_, by simp⟩
  rw [List.forall_mem_singleton, Token.inComment, hline, hblock]
  simp

/-- Tokens of plain classes. -/
theorem Spells.bare {terminals : List Terminal} (h : Spells terminals words)
    (hplain : terminals.all Terminal.isPlain = true) : Bare words [] := by
  refine ⟨?_, by simp⟩
  induction h with
  | nil => simp
  | cons hadmits _ ih =>
    rw [List.all_cons, Bool.and_eq_true] at hplain
    rw [List.forall_mem_cons]
    refine ⟨fun hregular => ?_, ih hplain.2⟩
    have hline := Terminal.not_slash_of_admits hplain.1 (.inl rfl) hregular hadmits
    have hblock := Terminal.not_slash_of_admits hplain.1 (.inr rfl) hregular hadmits
    exact (bare_token hline hblock).plain _ List.mem_cons_self hregular

theorem Breaks.bare (h : Breaks words) : Bare words [] := by
  refine ⟨?_, by simp⟩
  intro token htoken _
  rw [Token.inComment, h token htoken]
  rfl

theorem Layout.bare (h : Layout multiline words) : Bare words [] := by
  unfold Layout at h
  split at h
  · exact Breaks.bare h
  · rw [h]
    exact .nil

theorem OptionName.bare {text : String} (h : OptionName words text) : Bare words [] := by
  cases h with
  | path h => exact h.bare rfl
  | extension h => exact h.bare rfl
  | @member _ _ _ path h hpath =>
    have hreference : Lexeme.isReference path.lexeme = true := by
      rw [Lexeme.isReference, hpath, Bool.or_true]
    have hopens := Lexeme.not_opens_of_isReference hreference
    exact (h.bare rfl).append (bare_token hopens.1 hopens.2)

theorem Assignment.bare (h : Assignment multiline words node) : Bare words [node] := by
  cases h with
  | intro hbefore hname hbetween hequals hafter hvalue =>
    have hwords := hbefore.bare.append (hname.bare.append (hbetween.bare.append
      ((hequals.bare rfl).append (hafter.bare.append (hvalue.bare rfl)))))
    exact hwords.with (by simp [optionNode])

theorem ListedOption.bare (h : ListedOption words node) : Bare words [node] := by
  cases h with
  | intro h hafter => exact h.bare.append (Breaks.bare hafter)

theorem Separated.bare {item : List Token → Node → Prop} {close : Punctuation}
    (h : Separated item close words nodes)
    (hitem : ∀ {words node}, item words node → Bare words [node]) : Bare words nodes := by
  induction h with
  | last h hmark => exact (hitem h).append (hmark.bare rfl)
  | more h hcomma _ ih => exact (hitem h).append ((hcomma.bare rfl).append ih)

theorem OptionList.bare (h : OptionList words nodes) : Bare words nodes := by
  cases h with
  | absent => exact .nil
  | listed hopener h => exact (hopener.bare rfl).append (h.bare ListedOption.bare)

theorem ReservedName.bare (h : ReservedName words node) : Bare words [node] := by
  cases h with
  | intro h => exact (h.bare rfl).with (by simp)

theorem ReservedRange.bare {domain : NumberDomain} (h : ReservedRange domain words node) :
    Bare words [node] := by
  cases h with
  | single h _ => exact (h.bare rfl).with (by simp)
  | between h _ _ _ => exact (h.bare rfl).with (by simp)
  | toMax h _ => exact (h.bare rfl).with (by simp)

theorem FieldTail.bare (h : FieldTail words nodes) : Bare words nodes := by
  cases h with
  | intro h hoptions hend =>
    have hwords := (h.bare rfl).append (hoptions.bare.append (hend.bare rfl))
    exact ⟨hwords.plain, by simp [hoptions.bare.uncommented]⟩

theorem Payload.bare {kind : Kind} (hkind : kind ≠ .comment) (h : Payload kind words node) :
    Bare words [node] := by
  cases h with
  | single h => exact (h.bare rfl).with (by simp [hkind])
  | stream h => exact (h.bare rfl).with (by simp [hkind])

theorem Signature.bare (h : Signature words node) : Bare words [node] := by
  cases h with
  | intro h hinput hreturns houtput =>
    have hrequest := hinput.bare (by decide)
    have hresponse := houtput.bare (by decide)
    have hwords := (h.bare rfl).append (hrequest.append ((hreturns.bare rfl).append hresponse))
    refine ⟨hwords.plain, ?_⟩
    have hnodes : Uncommented [_, _] := hwords.uncommented
    simpa using hnodes

theorem typeKind_ne_comment (lexeme : String) : Parse.typeKind lexeme ≠ .comment := by
  unfold Parse.typeKind
  split <;> decide

/-- **A statement that is no comment has no token that opens one**, and no comment in its node. -/
theorem Line.bare {statement : Statement} (h : Line statement words node)
    (hstatement : statement ≠ .comment .block) : Bare words [node] := by
  cases h with
  | version h _ => exact (h.bare rfl).with (by simp)
  | plainImport h => exact (h.bare rfl).with (by simp)
  | @qualifiedImport keyword modifier _ _ h hmodifier hpath =>
    have hword : Bare [modifier] [] := by
      obtain ⟨found, hfound⟩ := Option.isSome_iff_exists.1 hmodifier
      have htext : found.text = modifier.lexeme := by simpa using List.find?_some hfound
      have hspells : Spells [.word found.text] [modifier] := by simp [htext]
      exact hspells.bare (by cases found <;> decide)
    exact ((h.bare rfl).append (hword.append (hpath.bare rfl))).with (by simp)
  | package h => exact (h.bare rfl).with (by simp)
  | option hkeyword h hend =>
    exact (hkeyword.bare rfl).append (h.bare.append (hend.bare rfl))
  | field htype _ htail =>
    exact ⟨((htype.bare rfl).append htail.bare).plain, by
      simp [typeKind_ne_comment, htail.bare.uncommented]⟩
  | @labelledField label _ kind _ _ hlabel htype htail =>
    have hword : Bare [label] [] ∧ kind ≠ .comment := by
      simp only [Parse.labelKind?, List.lookup_cons, List.lookup_nil] at hlabel
      split at hlabel
      · rename_i hrepeated
        have hspells : Spells [.word "repeated"] [label] := by simpa using hrepeated
        exact ⟨hspells.bare rfl, by cases hlabel; decide⟩
      · split at hlabel
        · rename_i hoptional
          have hspells : Spells [.word "optional"] [label] := by simpa using hoptional
          exact ⟨hspells.bare rfl, by cases hlabel; decide⟩
        · cases hlabel
    exact ⟨(hword.1.append ((htype.bare rfl).append htail.bare)).plain, by
      simp [typeKind_ne_comment, htail.bare.uncommented, hword.2]⟩
  | map h htail =>
    exact ⟨((h.bare rfl).append htail.bare).plain, by simp [htail.bare.uncommented]⟩
  | constant h _ _ hoptions hend =>
    exact ⟨((h.bare rfl).append (hoptions.bare.append (hend.bare rfl))).plain, by
      simp [hoptions.bare.uncommented]⟩
  | reservedNames hkeyword h =>
    have hentries := h.bare ReservedName.bare
    exact ⟨((hkeyword.bare rfl).append hentries).plain, by simp [hentries.uncommented]⟩
  | reservedRanges hkeyword _ h =>
    have hentries := h.bare ReservedRange.bare
    exact ⟨((hkeyword.bare rfl).append hentries).plain, by simp [hentries.uncommented]⟩
  | method h hend => exact h.bare.append (hend.bare rfl)
  | shortComment _ _ => exact absurd rfl hstatement
  | blockComment _ _ _ _ => exact absurd rfl hstatement

theorem Opening.bare {statement : Statement} {frame : Frame} (h : Opening statement words frame) :
    Bare words [frame.node] := by
  cases h with
  | @named _ word kind _ _ _ _ hblock h =>
    have hplain : (Terminal.word word).isPlain = true ∧ kind ≠ .comment := by
      cases statement <;> cases hblock <;> decide
    exact (h.bare (by rw [List.all_cons, hplain.1]; rfl)).with (by simp [hplain.2])
  | method h hopener => exact h.bare.append (hopener.bare rfl)

theorem Trailer.bare {scope : Scope} (h : Trailer scope words) : Bare words [] := by
  cases h with
  | none => exact .nil
  | semicolon h => exact h.bare rfl

/-! ### Comments -/

theorem LineComment.kind_eq (h : LineComment words node) : node.kind = .comment := by
  cases h
  rfl

/-- A line comment leaves nothing, and is open at its end. -/
theorem LineComment.erase (h : LineComment words node) (hregular : ∀ token ∈ words, token.Regular) :
    eraseComments none words = [] ∧ afterTokens none words = some .line := by
  cases h with
  | @intro opener others hopener hothers =>
    have hend := (hregular opener List.mem_cons_self).isLineEnd_of_slash hopener
    have hafter : afterToken none opener = some .line := by
      simp [afterToken, hend, afterWord, hopener]
    have hin : opener.inComment none = true := by simp [Token.inComment, hend, hopener]
    rw [eraseComments, if_pos hin, afterTokens_cons, hafter]
    clear hregular
    induction others with
    | nil => exact ⟨rfl, rfl⟩
    | cons token rest ih =>
      rw [List.forall_mem_cons] at hothers
      have hin : token.inComment (some .line) = true := by simp [Token.inComment, hothers.1]
      have hafter : afterToken (some .line) token = some .line := by
        simp [afterToken, hothers.1, afterWord]
      rw [eraseComments, if_pos hin, afterTokens_cons, hafter]
      exact ih hothers.2

/-- Inside a block comment only line breaks stay. -/
theorem eraseComments_block (h : ∀ token ∈ words, Parse.closesComment token = false) :
    eraseComments (some .block) words = words.filter Token.isLineEnd ∧
      afterTokens (some .block) words = some .block := by
  induction words with
  | nil => exact ⟨rfl, rfl⟩
  | cons token rest ih =>
    rw [List.forall_mem_cons] at h
    rw [eraseComments, afterTokens_cons, Token.afterToken_of_closesComment h.1, (ih h.2).1,
      (ih h.2).2]
    by_cases hend : token.isLineEnd = true
    · simp [Token.inComment, hend]
    · simp [Token.inComment, hend]

/-- A block comment leaves its line breaks. -/
theorem Line.erase_comment (h : Line (.comment .block) words node)
    (hregular : ∀ token ∈ words, token.Regular) :
    node.kind = .comment ∧ ∃ breaks, Breaks breaks ∧ Erases words breaks := by
  have hopener : ∀ opener : Token, opener.Regular →
      Lexeme.opensBlockComment opener.lexeme = true → opener.inComment none = true ∧
        afterToken none opener =
          if Lexeme.closesBlockComment opener.lexeme then none else some .block := by
    intro opener hregular hopens
    have hend := hregular.isLineEnd_of_slash hopens
    have hline := Lexeme.opensLineComment_of_opensBlockComment hopens
    cases hcloses : Lexeme.closesBlockComment opener.lexeme <;>
      simp [Token.inComment, afterToken, afterWord, hend, hline, hopens, hcloses]
  cases h with
  | @shortComment opener hopens hcloses =>
    obtain ⟨hin, hafter⟩ := hopener opener (hregular opener List.mem_cons_self) hopens
    rw [if_pos hcloses] at hafter
    refine ⟨rfl, [], by simp [Breaks], ?_, ?_⟩
    · rw [eraseComments, if_pos hin, eraseComments]
    · rw [afterTokens_cons, hafter, afterTokens_nil]
  | @blockComment opener closer others hopens hopen hothers hcloser =>
    obtain ⟨hin, hafter⟩ := hopener opener (hregular opener List.mem_cons_self) hopens
    rw [if_neg (by simp [hopen])] at hafter
    obtain ⟨hkept, hblock⟩ := eraseComments_block hothers
    simp only [Parse.closesComment, Bool.and_eq_true, Bool.not_eq_true'] at hcloser
    refine ⟨rfl, others.filter Token.isLineEnd, by simp [Breaks], ?_, ?_⟩
    · rw [eraseComments, if_pos hin, hafter, eraseComments_append, hkept, hblock]
      simp [eraseComments, Token.inComment, hcloser]
    · rw [afterTokens_cons, hafter, afterTokens_append, hblock]
      simp [afterToken, afterWord, hcloser]

/-! ### Statements in a row -/

theorem Bare.erases (h : Bare words nodes) (hregular : ∀ token ∈ words, token.Regular) :
    Erases words words :=
  .self fun token htoken => h.plain token htoken (hregular token htoken)

variable {scope : Scope}

/-- **Statements without their comments are statements**, at any depth. -/
theorem Members.erase (h : Members scope words nodes) (hregular : ∀ token ∈ words, token.Regular) :
    ∃ kept, Erases words kept ∧ Members scope kept (withoutCommentsAll nodes) := by
  induction h with
  | nil => exact ⟨[], .nil, by rw [withoutCommentsAll]; exact .nil⟩
  | @blank _ token more nodes htoken _ ih =>
    rw [List.forall_mem_cons] at hregular
    obtain ⟨kept, herases, hkept⟩ := ih hregular.2
    have hin : token.inComment none = false := by simp [Token.inComment, htoken]
    exact ⟨token :: kept, herases.cons hin, .blank htoken hkept⟩
  | @comment _ words more token node nodes h htoken _ ih =>
    rw [List.forall_mem_append] at hregular
    obtain ⟨kept, herases, hkept⟩ := ih hregular.2
    obtain ⟨hnil, hopen⟩ := h.erase hregular.1
    -- the line break closes the comment, so what follows it is the same
    have hbreak : afterToken (some .line) token = afterToken none token := by
      simp [afterToken, htoken, afterLine]
    have hin : token.inComment (some .line) = token.inComment none := by
      simp [Token.inComment, htoken]
    refine ⟨kept, ⟨?_, ?_⟩, ?_⟩
    · rw [eraseComments_append, hnil, hopen, ← herases.erase, eraseComments, eraseComments, hbreak,
        hin, List.nil_append]
    · rw [afterTokens_append, hopen, ← herases.closed, afterTokens_cons, afterTokens_cons, hbreak]
    · rw [withoutCommentsAll, if_pos (h.kind_eq)]
      exact hkept
  | @line _ statement words more node nodes hscope h _ ih =>
    rw [List.forall_mem_append] at hregular
    obtain ⟨kept, herases, hkept⟩ := ih hregular.2
    by_cases hstatement : statement = .comment .block
    · subst hstatement
      obtain ⟨hkind, breaks, hbreaks, hwords⟩ := h.erase_comment hregular.1
      refine ⟨breaks ++ kept, hwords.append herases, ?_⟩
      rw [withoutCommentsAll, if_pos hkind]
      exact hkept.blanks hbreaks
    · have hbare := h.bare hstatement
      refine ⟨words ++ kept, (hbare.erases hregular.1).append herases, ?_⟩
      rw [← List.singleton_append, withoutCommentsAll_append, hbare.uncommented]
      exact .line hscope h hkept
  | @block _ statement opening body trailer more frame closer members nodes hscope hopening _
      hcloser htrailer _ ihbody ihmore =>
    simp only [List.forall_mem_append, List.forall_mem_cons] at hregular
    obtain ⟨hregularOpening, hregularBody, hregularCloser, hregularTrailer, hregularMore⟩ :=
      hregular
    obtain ⟨keptBody, herasesBody, hkeptBody⟩ := ihbody hregularBody
    obtain ⟨keptMore, herasesMore, hkeptMore⟩ := ihmore hregularMore
    have hclose := (hcloser.bare rfl).erases (by simpa using hregularCloser)
    have htail := (htrailer.bare.erases hregularTrailer).append herasesMore
    have hwords := (hopening.bare.erases hregularOpening).append
      (herasesBody.append (hclose.append htail))
    refine ⟨opening ++ (keptBody ++ closer :: (trailer ++ keptMore)), hwords, ?_⟩
    have hnode : withoutCommentsAll (frame.node.append members :: nodes) =
        frame.node.append (withoutCommentsAll members) :: withoutCommentsAll nodes := by
      have huncommented := hopening.bare.uncommented
      rw [uncommented_cons, Uncommented] at huncommented
      rw [withoutCommentsAll, if_neg (by exact huncommented.1), append, withoutComments,
        withoutCommentsAll_append, huncommented.2.1]
      rfl
    rw [hnode]
    exact .block hscope hopening hkeptBody hcloser htrailer hkeptMore

/-- A file without its comments is a file. -/
theorem Schema.erase (h : Schema words nodes) (hregular : ∀ token ∈ words, token.Regular) :
    Schema (eraseComments none words) (withoutCommentsAll nodes) := by
  cases h with
  | closed h =>
    obtain ⟨kept, herases, hkept⟩ := h.erase hregular
    rw [herases.erase]
    exact .closed hkept
  | @commented words last node nodes h hlast =>
    rw [List.forall_mem_append] at hregular
    obtain ⟨kept, herases, hkept⟩ := h.erase hregular.1
    rw [eraseComments_append, herases.closed, herases.erase, (hlast.erase hregular.2).1,
      List.append_nil, withoutCommentsAll_append, withoutCommentsAll,
      if_pos (hlast.kind_eq), withoutCommentsAll, List.append_nil]
    exact .closed hkept

end Grammar

/-! ### Whole texts -/

namespace Tree

open Node

/-- **Comments can be erased.** The lexer tracks comments from token to token, and without the
tokens that it places in comments a text that has no errors still has none; its tree is the same
but for the comments, and it describes the same file. -/
theorem ofTokens_eraseComments (source : String) (h : (ofSource source).errors = []) :
    (∀ characters, (Lexer.feed {} characters).2.comment =
        afterTokens none (Lexer.feed {} characters).1) ∧
      ofTokens (eraseComments none (tokenize source)) =
        ⟨(ofSource source).root.withoutComments, []⟩ ∧
      File.ofNode (ofTokens (eraseComments none (tokenize source))).root =
        File.ofNode (ofSource source).root := by
  have hregular := regular_tokenize source
  obtain ⟨nodes, hschema⟩ := schema_of_readFrom {} (.ofTokens (tokenize source)) hregular h
  have hsource : ofSource source = ⟨emptyRoot.append nodes, []⟩ := ofSource_of_schema hschema
  have herased : ofTokens (eraseComments none (tokenize source)) =
      ⟨emptyRoot.append (withoutCommentsAll nodes), []⟩ :=
    readFrom_of_schema (hschema.erase hregular) fun token htoken =>
      hregular token (mem_of_mem_eraseComments htoken)
  refine ⟨Lexer.comment_feed {}, ?_, ?_⟩
  · rw [herased, hsource, append, append, withoutComments]
    rfl
  · have hmembers := FileMember.collect_withoutCommentsAll nodes
    rw [herased, hsource]
    simp [File.ofNode, isRoot, append, emptyRoot, hmembers]

/-- A message with comments that hold quotes, marks of other comments and a line break. -/
def commentedMessage : String :=
  "// it's /* a line\nmessage M \x7b /*/ \"a;\n// */ /*'*/ int32 a = 1; // */\n\x7d /**/"

theorem ofTokens_eraseComments_commentedMessage :
    (ofSource commentedMessage).errors = [] ∧
      (eraseComments none (tokenize commentedMessage)).map Token.lexeme =
        ["\n", "message", "M", "\x7b", "\n", "int32", "a", "=", "1", ";", "\n", "\x7d"] ∧
      ofTokens (eraseComments none (tokenize commentedMessage)) =
        ⟨(ofSource commentedMessage).root.withoutComments, []⟩ := by
  have herrors : (ofSource commentedMessage).errors = [] := by decide +kernel
  exact ⟨herrors, by decide +kernel, (ofTokens_eraseComments commentedMessage herrors).2.1⟩

end Tree

end ProtoSchema
