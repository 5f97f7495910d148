import ProtoSchema.Proofs.Lockstep
import ProtoSchema.Proofs.Outcomes
import ProtoSchema.Proofs.Progress

/-!
# Braces that match

A message ends with the brace that matches its own, braces in comments apart, if the lines that are
passed after a malformed member have their braces in pairs: reading a member passes no brace but the
one that opens its body. A line that is passed with a brace of the message itself costs the message
its end.

* `nesting?`: the comment and the braces that are open after tokens.
* `Tape.Enclosed`: a place inside braces; `Enclosed.pass` leads from place to place.
* `Tape.Enclosed.start`: what a statement passes.
* `read_message_of_balanced`: a whole message.
-/

namespace ProtoSchema

open OpenComment Parse

variable {comment comment' : Option OpenComment} {depth depth' : Nat} {token : Token}
  {words passed others : List Token}

/-! ### Counting braces -/

/-- The number of open braces after a token; braces in comments do not count. -/
def Token.nest? (comment : Option OpenComment) (depth : Nat) (token : Token) : Option Nat :=
  if token.inComment comment then some depth
  else if token.isMark .openBrace then some (depth + 1)
  else if token.isMark .closeBrace then
    match depth with
    | 0 => none
    | outer + 1 => some outer
  else some depth

/-- The comment and the number of braces that are open after tokens, if none of them closes a brace
that was not opened. -/
def nesting? (comment : Option OpenComment) (depth : Nat) :
    List Token → Option (Option OpenComment × Nat)
  | [] => some (comment, depth)
  | token :: rest => (token.nest? comment depth).bind fun inner =>
      nesting? (afterToken comment token) inner rest

/-- The braces of a line are in pairs, and no block comment is open at its end. -/
def Balanced (line : List Token) : Bool :=
  match nesting? none 0 line with
  | some (comment, 0) => comment != some .block
  | _ => false

theorem nesting?_append (first second : List Token) :
    nesting? comment depth (first ++ second) =
      (nesting? comment depth first).bind fun state => nesting? state.1 state.2 second := by
  induction first generalizing comment depth with
  | nil => rfl
  | cons token rest ih =>
    rw [List.cons_append, nesting?, nesting?, Option.bind_assoc]
    congr
    funext inner
    exact ih

/-- More braces that are open before a token are open after it. -/
theorem Token.nest?_add {inner : Nat} (h : token.nest? comment depth = some inner) (outer : Nat) :
    token.nest? comment (depth + outer) = some (inner + outer) := by
  unfold nest? at h ⊢
  split at h
  · rw [if_pos (by assumption)]
    cases h
    rfl
  · rw [if_neg (by assumption)]
    split at h
    · rw [if_pos (by assumption)]
      cases h
      rw [Nat.add_right_comm]
    · rw [if_neg (by assumption)]
      split at h
      · -- a brace that is closed was open before, not one of those further out
        rw [if_pos (by assumption)]
        cases depth with
        | zero => cases h
        | succ outermost =>
          cases h
          rw [Nat.add_right_comm]
      · rw [if_neg (by assumption)]
        cases h
        rfl

theorem nesting?_add (h : nesting? comment depth words = some (comment', depth')) (outer : Nat) :
    nesting? comment (depth + outer) words = some (comment', depth' + outer) := by
  induction words generalizing comment depth with
  | nil =>
    cases h
    rfl
  | cons token rest ih =>
    obtain ⟨inner, hinner, hrest⟩ := Option.bind_eq_some_iff.1 h
    rw [nesting?, token.nest?_add hinner]
    exact ih hrest

/-! ### Stretches of tokens -/

theorem nesting?_singleton (token : Token) :
    nesting? comment depth [token] =
      (token.nest? comment depth).map fun inner => (afterToken comment token, inner) := by
  rw [nesting?]
  cases token.nest? comment depth <;> rfl

/-- A mark belongs to no comment outside comments. -/
theorem Token.inComment_of_isMark {sign : Punctuation} (h : token.isMark sign = true) :
    token.inComment none = false := by
  have hlexeme : token.lexeme = sign.text := beq_iff_eq.1 h
  have hline : Lexeme.opensLineComment sign.text = false := by cases sign <;> decide
  have hblock : Lexeme.opensBlockComment sign.text = false := by cases sign <;> decide
  simp [inComment, hlexeme, hline, hblock]

theorem nesting?_of_inner (h : token.Inner) : nesting? none depth [token] = some (none, depth) := by
  rw [nesting?_singleton, Token.afterToken_of_inComment h.comment]
  simp [Token.nest?, h.comment, h.opener, h.closer]

theorem nesting?_of_opener (h : token.isMark .openBrace = true) :
    nesting? none depth [token] = some (none, depth + 1) := by
  have hcomment := Token.inComment_of_isMark h
  rw [nesting?_singleton, Token.afterToken_of_inComment hcomment]
  simp [Token.nest?, hcomment, h]

theorem nest?_of_closer (h : token.isMark .closeBrace = true) :
    token.nest? none depth = match depth with
      | 0 => none
      | outer + 1 => some outer := by
  have hopener : token.isMark .openBrace = false := by
    rw [← Bool.not_eq_true]
    intro hopener
    cases Token.eq_of_isMark h hopener
  simp [Token.nest?, Token.inComment_of_isMark h, hopener, h]

theorem nesting?_of_closer (h : token.isMark .closeBrace = true) :
    nesting? none (depth + 1) [token] = some (none, depth) := by
  rw [nesting?_singleton, Token.afterToken_of_inComment (Token.inComment_of_isMark h),
    nest?_of_closer h]
  rfl

/-- Line breaks and what stands in a comment leave the braces as they are. -/
theorem nest?_of_comment (hregular : token.Regular)
    (h : token.isLineEnd = true ∨ comment.isSome = true) :
    token.nest? comment depth = some depth := by
  cases hend : token.isLineEnd with
  | true =>
    have hmark : ∀ sign, token.isMark sign = false := by
      intro sign
      rw [← Bool.not_eq_true]
      intro hmark
      rw [hregular.isLineEnd_of_isMark hmark] at hend
      cases hend
    simp [Token.nest?, Token.inComment, hend, hmark]
  | false =>
    rw [hend] at h
    simp [Token.nest?, Token.inComment, hend, h.resolve_left Bool.false_ne_true]

/-- A stretch of tokens that stays in a comment, or of line breaks. -/
theorem nesting?_of_comment (hregular : ∀ token ∈ words, token.Regular)
    (h : ∀ token ∈ words, (token.isLineEnd = true ∨ comment.isSome = true) ∧
      afterToken comment token = comment) :
    nesting? comment depth words = some (comment, depth) := by
  induction words with
  | nil => rfl
  | cons token rest ih =>
    rw [List.forall_mem_cons] at hregular h
    rw [nesting?, nest?_of_comment hregular.1 h.1.1, h.1.2]
    exact ih hregular.2 h.2

theorem nesting?_of_breaks (hregular : ∀ token ∈ words, token.Regular)
    (h : ∀ token ∈ words, token.isLineEnd = true) :
    nesting? none depth words = some (none, depth) :=
  nesting?_of_comment hregular fun token htoken =>
    ⟨.inl (h token htoken), by rw [afterToken, if_pos (h token htoken)]; rfl⟩

/-! ### Places inside braces -/

/-- The tokens to come close the braces that are open, and with one more brace go on behind them. -/
structure Tape.Enclosed (closer : Token) (outside : List Token) (comment : Option OpenComment)
    (depth : Nat) (tape : Tape) : Prop where
  regular : ∀ token ∈ tape.rest, token.Regular
  exists_words : ∃ words, tape.rest = words ++ closer :: outside ∧
    nesting? comment depth words = some (none, 0)

namespace Tape.Enclosed

variable {closer : Token} {outside : List Token} {tape later : Tape}

theorem exists_peek? (h : tape.Enclosed closer outside comment depth) :
    ∃ token, tape.peek? = some token ∧ token.Regular := by
  obtain ⟨words, hrest, -⟩ := h.exists_words
  cases hpeek : tape.peek? with
  | none =>
    rw [Tape.rest_of_peek?_eq_none hpeek] at hrest
    exact absurd hrest (by simp)
  | some token => exact ⟨token, rfl, h.regular token (List.mem_of_head? hpeek)⟩

/-- **Tokens that close no brace but those they open or find open** do not reach the brace at the
end. -/
theorem pass (hcloser : closer.isMark .closeBrace = true)
    (h : tape.Enclosed closer outside comment depth) (hrest : tape.rest = passed ++ later.rest)
    (hpassed : nesting? comment depth passed = some (comment', depth')) :
    later.Enclosed closer outside comment' depth' := by
  obtain ⟨words, hwords, hnesting⟩ := h.exists_words
  refine ⟨fun token htoken => h.regular token ?_, ?_⟩
  · rw [hrest]
    exact List.mem_append_right _ htoken
  · rw [hrest] at hwords
    rcases List.append_eq_append_iff.1 hwords with ⟨left, rfl, hleft⟩ | ⟨left, rfl, hleft⟩
    · refine ⟨left, hleft, ?_⟩
      rwa [nesting?_append, hpassed] at hnesting
    · -- the brace at the end would be the first of those that are left
      cases left with
      | nil =>
        rw [List.append_nil, hnesting] at hpassed
        cases hpassed
        exact ⟨[], hleft.symm, rfl⟩
      | cons first more =>
        cases hleft
        rw [nesting?_append, hnesting] at hpassed
        simp [nesting?, nest?_of_closer hcloser] at hpassed

theorem advance (hcloser : closer.isMark .closeBrace = true)
    (h : tape.Enclosed closer outside comment depth) (hpeek : tape.peek? = some token)
    (htoken : nesting? comment depth [token] = some (comment', depth')) :
    tape.advance.Enclosed closer outside comment' depth' :=
  h.pass hcloser (Frame.rest_of_peek? hpeek) htoken

theorem skipWhile (hcloser : closer.isMark .closeBrace = true)
    (h : tape.Enclosed closer outside comment depth) {test : Token → Bool}
    (htaken : nesting? comment depth (tape.rest.takeWhile test) = some (comment', depth')) :
    (tape.skipWhile test).Enclosed closer outside comment' depth' :=
  h.pass hcloser List.takeWhile_append_dropWhile.symm htaken

theorem regular_takeWhile (h : tape.Enclosed closer outside comment depth) (test : Token → Bool) :
    ∀ token ∈ tape.rest.takeWhile test, token.Regular :=
  fun token htoken => h.regular token ((List.takeWhile_sublist test).subset htoken)

theorem skipBreaks (hcloser : closer.isMark .closeBrace = true)
    (h : tape.Enclosed closer outside none depth) :
    tape.skipBreaks.Enclosed closer outside none depth :=
  h.skipWhile hcloser
    (nesting?_of_breaks (h.regular_takeWhile _) fun _ htoken => List.mem_takeWhile_imp htoken)

/-- At the end of a line no line comment is open. -/
theorem skipLineEnd (hcloser : closer.isMark .closeBrace = true)
    (h : tape.Enclosed closer outside comment depth) (hcomment : comment ≠ some .block)
    (hnext : ∀ token, tape.peek? = some token → token.isLineEnd = true) :
    tape.advance.Enclosed closer outside none depth := by
  obtain ⟨token, hpeek, hregular⟩ := h.exists_peek?
  have hend := hnext token hpeek
  refine h.advance hcloser hpeek ?_
  rw [nesting?_singleton, nest?_of_comment hregular (.inl hend), afterToken, if_pos hend]
  rcases comment with _ | (_ | _)
  · rfl
  · rfl
  · exact absurd rfl hcomment

/-- **A line may be passed**, if it leaves the braces as they are and no block comment open. -/
theorem skipLine_of_nesting? (hcloser : closer.isMark .closeBrace = true)
    (h : tape.Enclosed closer outside comment depth)
    (hline : nesting? comment depth (tape.rest.takeWhile (!·.isLineEnd)) = some (comment', depth))
    (hcomment : comment' ≠ some .block) : tape.skipLine.Enclosed closer outside none depth := by
  refine (h.skipWhile hcloser hline).skipLineEnd hcloser hcomment ?_
  intro token htoken
  simpa using next_dropWhile (!·.isLineEnd) tape.rest token htoken

theorem skipLine (hcloser : closer.isMark .closeBrace = true)
    (h : tape.Enclosed closer outside none depth)
    (hline : Balanced (tape.rest.takeWhile (!·.isLineEnd)) = true) :
    tape.skipLine.Enclosed closer outside none depth := by
  unfold Balanced at hline
  split at hline
  · rename_i comment hnesting
    have hmore := nesting?_add hnesting depth
    rw [Nat.zero_add] at hmore
    exact h.skipLine_of_nesting? hcloser hmore (by simpa using hline)
  · cases hline

/-- A line comment ends inside the braces. -/
theorem afterLineComment (hcloser : closer.isMark .closeBrace = true)
    (h : tape.Enclosed closer outside none depth) (hpeek : tape.peek? = some token)
    (hopens : Lexeme.opensLineComment token.lexeme = true) :
    (tape.advance.skipWhile (!·.isLineEnd)).skipBreaks.Enclosed closer outside none depth := by
  have hregular := h.regular token (List.mem_of_head? hpeek)
  have hend := hregular.isLineEnd_of_slash hopens
  have hopened : tape.advance.Enclosed closer outside (some .line) depth := by
    refine h.advance hcloser hpeek ?_
    rw [nesting?_singleton]
    simp [Token.nest?, Token.inComment, afterToken, afterWord, hend, hopens]
  rw [← Tape.skipBreaks_skipLine]
  have hline : nesting? (some .line) depth (tape.advance.rest.takeWhile (!·.isLineEnd)) =
      some (some .line, depth) := by
    refine nesting?_of_comment (hopened.regular_takeWhile _) fun word hword => ?_
    have hinside : word.isLineEnd = false := by simpa using List.mem_takeWhile_imp hword
    exact ⟨.inr rfl, by simp [afterToken, hinside, afterWord]⟩
  exact (hopened.skipLine_of_nesting? hcloser hline (by decide)).skipBreaks hcloser

/-- A block comment ends inside the braces. -/
theorem afterBlockComment (hcloser : closer.isMark .closeBrace = true)
    (h : tape.Enclosed closer outside none depth) (hpeek : tape.peek? = some token)
    (hopens : Lexeme.opensBlockComment token.lexeme = true) :
    ∃ later, tape.afterComment? token .block = some later ∧
      later.Enclosed closer outside none depth := by
  have hregular := h.regular token (List.mem_of_head? hpeek)
  have hend := hregular.isLineEnd_of_slash hopens
  have hline := Lexeme.opensLineComment_of_opensBlockComment hopens
  have hadvance : tape.advance.Enclosed closer outside
      (if Lexeme.closesBlockComment token.lexeme then none else some .block) depth := by
    refine h.advance hcloser hpeek ?_
    rw [nesting?_singleton]
    cases hcloses : Lexeme.closesBlockComment token.lexeme <;>
      simp [Token.nest?, Token.inComment, afterToken, afterWord, hend, hopens, hline, hcloses]
  unfold Tape.afterComment?
  by_cases hcloses : Lexeme.closesBlockComment token.lexeme = true
  · rw [if_pos hcloses] at hadvance ⊢
    exact ⟨_, rfl, hadvance⟩
  · rw [if_neg hcloses] at hadvance ⊢
    have hskip : (tape.advance.skipWhile (!closesComment ·)).Enclosed closer outside
        (some .block) depth := by
      refine hadvance.skipWhile hcloser
        (nesting?_of_comment (hadvance.regular_takeWhile _) fun word hword => ?_)
      have hopen : closesComment word = false := by simpa using List.mem_takeWhile_imp hword
      exact ⟨.inr rfl, Token.afterToken_of_closesComment hopen⟩
    obtain ⟨last, hlast, hlastRegular⟩ := hskip.exists_peek?
    refine ⟨_, by simp only [hlast, Option.map_some], hskip.advance hcloser hlast ?_⟩
    have hcloses : closesComment last = true := by
      simpa using next_dropWhile (!closesComment ·) tape.advance.rest last hlast
    rw [closesComment, Bool.and_eq_true, Bool.not_eq_true'] at hcloses
    rw [nesting?_singleton, nest?_of_comment hlastRegular (.inr rfl)]
    simp [afterToken, afterWord, hcloses]

end Tape.Enclosed

variable {closer : Token} {outside : List Token} {tape later : Tape}

/-- A reading inside braces is coupled with itself: it stays there as long as it passes no brace. -/
def Coupling.enclosed (closer : Token) (outside : List Token) (depth : Nat)
    (hcloser : closer.isMark .closeBrace = true) : Coupling where
  rel tape tape' := tape' = tape ∧ tape.Enclosed closer outside none depth
  twin := Eq
  opened tape tape' := tape' = tape ∧ tape.Enclosed closer outside none (depth + 1)
  passes := Token.Inner
  kept _ := True
  kept_of_reaches _ _ := trivial
  twin_eq := @Token.exists_position
  peek := by
    rintro _ tape ⟨rfl, -⟩
    cases tape.peek? with
    | none => exact .none
    | some token => exact .some rfl
  nearest := by
    rintro _ tape ⟨rfl, -⟩
    rfl
  advance := by
    rintro _ tape token ⟨rfl, h⟩ hpeek hinner -
    exact ⟨rfl, h.advance hcloser hpeek (nesting?_of_inner hinner)⟩
  opens := by
    rintro _ tape token ⟨rfl, h⟩ hpeek hbrace -
    exact ⟨rfl, h.advance hcloser hpeek (nesting?_of_opener hbrace)⟩
  skipBreaks := by
    rintro _ tape ⟨rfl, h⟩ -
    exact ⟨rfl, h.skipBreaks hcloser⟩
  stream _ _ _ := trivial
  passes_of_inner := by
    rintro _ tape token ⟨rfl, h⟩ hpeek hinner
    exact hinner (h.regular token (List.mem_of_head? hpeek))

/-- A diagnostic points at the next token, or at one just passed that is no brace. -/
def Tape.PointsAt (tape : Tape) (token : Token) : Prop :=
  tape.nearest = token ∨ token.Inner ∧ tape.seen.head? = some token

/-- A statement was read inside braces: it stays there, or opens one more brace, or is refused. -/
inductive Tape.Stays (closer : Token) (outside : List Token) (depth : Nat) :
    EStateM.Result Diagnostic Tape Reading → Prop
  | whole {node : Node} {later : Tape}
      (h : later.skipBreaks.Enclosed closer outside none depth) :
      Stays closer outside depth (.ok (.whole node) later)
  | opened {frame : Frame} {later : Tape}
      (h : later.skipBreaks.Enclosed closer outside none (depth + 1)) :
      Stays closer outside depth (.ok (.opened frame) later)
  | refused {diagnostic : Diagnostic} {later : Tape} (h : later.Enclosed closer outside none depth)
      (hminor : diagnostic.isFatal = false) (hplace : later.PointsAt diagnostic.token) :
      Stays closer outside depth (.error diagnostic later)

namespace Tape.Enclosed

variable {scope : Scope} {statement : Statement}

/-- A statement that is no comment passes no brace but the one that opens its body. -/
theorem stays_statement (hcloser : closer.isMark .closeBrace = true)
    (h : tape.Enclosed closer outside none depth) (hpeek : tape.peek? = some token)
    (hstatement : scope.statement? token.lexeme = some statement)
    (hcomment : ∀ mark, statement ≠ .comment mark) :
    Stays closer outside depth (statement.start tape) := by
  have hregular := h.regular token (List.mem_of_head? hpeek)
  have hinner := Scope.inner_of_statement? hregular hstatement hcomment
  have hrel : (Coupling.enclosed closer outside depth hcloser).rel tape tape := ⟨rfl, h⟩
  have hagrees := Coupling.agrees_start statement hcomment hrel
    (fun _ first hfirst => by
      obtain rfl : token = first := Option.some.inj (hpeek.symm.trans hfirst)
      exact hinner) trivial
  have hminor : ∀ {diagnostic later}, statement.start tape = .error diagnostic later →
      diagnostic.isFatal = false :=
    (Statement.recoverable_start (hcomment .block)).minor
  generalize statement.start tape = result at hagrees hminor
  cases hagrees with
  | ok hbegun =>
    cases hbegun with
    | whole hrel => exact .whole (hrel.2.skipBreaks hcloser)
    | opened _ hopened => exact .opened (hopened.2.skipBreaks hcloser)
  | error hrel _ hplace => exact .refused hrel.2 (hminor rfl) hplace

/-- A comment passes the braces in it, and none behind it. -/
theorem stays_comment {mark : OpenComment} (hcloser : closer.isMark .closeBrace = true)
    (h : tape.Enclosed closer outside none depth) (hpeek : tape.peek? = some token)
    (hstatement : scope.statement? token.lexeme = some (.comment mark)) :
    Stays closer outside depth (Statement.start (.comment mark) tape) := by
  have hopens := Scope.opens_of_statement? hstatement
  have hends : ∃ later, tape.afterComment? token mark = some later ∧
      later.skipBreaks.Enclosed closer outside none depth := by
    cases mark with
    | line => exact ⟨_, rfl, h.afterLineComment hcloser hpeek hopens⟩
    | block =>
      obtain ⟨later, hlater, henclosed⟩ := h.afterBlockComment hcloser hpeek hopens
      exact ⟨later, hlater, henclosed.skipBreaks hcloser⟩
  obtain ⟨later, hlater, henclosed⟩ := hends
  rcases Statement.start_comment hpeek hopens with
    ⟨after, node, hafter, -, hstart⟩ | ⟨hnone, -⟩
  · rw [hlater] at hafter
    cases hafter
    rw [hstart]
    exact .whole henclosed
  · rw [hlater] at hnone
    cases hnone

/-- **What a statement passes**: braces in comments, and the one that opens its body. -/
theorem stays_start (hcloser : closer.isMark .closeBrace = true)
    (h : tape.Enclosed closer outside none depth) (hpeek : tape.peek? = some token)
    (hstatement : scope.statement? token.lexeme = some statement) :
    Stays closer outside depth (statement.start tape) := by
  by_cases hcomment : ∃ mark, statement = .comment mark
  · obtain ⟨mark, rfl⟩ := hcomment
    exact h.stays_comment hcloser hpeek hstatement
  · exact h.stays_statement hcloser hpeek hstatement fun mark hmark => hcomment ⟨mark, hmark⟩

/-- The brace that closes the last of the open braces is the one at the end. -/
theorem rest_advance (h : tape.Enclosed closer outside none 0) (hpeek : tape.peek? = some token)
    (htoken : token.isMark .closeBrace = true) : tape.advance.rest = outside := by
  obtain ⟨words, hwords, hnesting⟩ := h.exists_words
  rw [Frame.rest_of_peek? hpeek] at hwords
  cases words with
  | nil => exact (List.cons.inj hwords).2
  | cons first more =>
    obtain rfl : token = first := (List.cons.inj hwords).1
    simp [nesting?, nest?_of_closer htoken] at hnesting

/-- Behind the closing brace of a block inside the braces, which a semicolon may follow. -/
theorem afterBody (hcloser : closer.isMark .closeBrace = true)
    (h : tape.Enclosed closer outside none (depth + 1)) (hpeek : tape.peek? = some token)
    (htoken : token.isMark .closeBrace = true) :
    (scope.afterBody tape.advance).skipBreaks.Enclosed closer outside none depth := by
  have hadvance := h.advance hcloser hpeek (nesting?_of_closer htoken)
  have hrel : (Coupling.enclosed closer outside depth hcloser).rel tape.advance tape.advance :=
    ⟨rfl, hadvance⟩
  exact (Coupling.rel_afterBody scope (fun _ => trivial) hrel).2.skipBreaks hcloser

end Tape.Enclosed

/-! ### Lines that are passed -/

/-- The line of a diagnostic has its braces in pairs, from the token of the diagnostic on. -/
def Diagnostic.SparesBraces (tokens : List Token) (diagnostic : Diagnostic) : Prop :=
  ∀ n < tokens.length, tokens[n]? = some diagnostic.token →
    Balanced ((tokens.drop n).takeWhile (!·.isLineEnd)) = true

instance (tokens : List Token) (diagnostic : Diagnostic) :
    Decidable (diagnostic.SparesBraces tokens) :=
  inferInstanceAs (Decidable (∀ n < tokens.length, tokens[n]? = some diagnostic.token →
    Balanced ((tokens.drop n).takeWhile (!·.isLineEnd)) = true))

theorem Diagnostic.SparesBraces.balanced {diagnostic : Diagnostic} {tokens : List Token}
    (h : diagnostic.SparesBraces tokens) (htokens : tokens = words ++ diagnostic.token :: others) :
    Balanced ((diagnostic.token :: others).takeWhile (!·.isLineEnd)) = true := by
  subst htokens
  simpa using h words.length (by simp) (by simp)

/-- The rest of the line, which is passed after a diagnostic, has its braces in pairs. -/
theorem Tape.PointsAt.balanced {diagnostic : Diagnostic} {tokens : List Token}
    (h : tape.PointsAt diagnostic.token) (htokens : tape.tokens = tokens)
    (hspares : diagnostic.SparesBraces tokens) :
    Balanced (tape.rest.takeWhile (!·.isLineEnd)) = true := by
  rcases h with hnearest | ⟨hinner, hseen⟩
  · cases hrest : tape.rest with
    | nil => rfl
    | cons first rest =>
      obtain rfl : first = diagnostic.token := by simpa [nearest, peek?, hrest] using hnearest
      exact hspares.balanced (by rw [← htokens, Tape.tokens, hrest])
  · -- the token just passed is no brace, so that the line has its braces in pairs without it
    obtain ⟨others, hothers⟩ := List.head?_eq_some_iff.1 hseen
    have hsplit : tokens = others.reverse ++ diagnostic.token :: tape.rest := by
      rw [← htokens, Tape.tokens, hothers]
      simp
    have hline := hspares.balanced hsplit
    rw [List.takeWhile_cons_of_pos (by simp [hinner.lineEnd])] at hline
    rw [Balanced, ← List.singleton_append, nesting?_append, nesting?_of_inner hinner] at hline
    exact hline

/-- **The rest of the line is passed inside the braces.** -/
theorem Tape.Enclosed.refuse {diagnostic : Diagnostic} {tokens : List Token}
    (hcloser : closer.isMark .closeBrace = true) (h : tape.Enclosed closer outside none depth)
    (htokens : tape.tokens = tokens) (hplace : tape.PointsAt diagnostic.token)
    (hspares : diagnostic.SparesBraces tokens) :
    tape.skipLine.skipBreaks.Enclosed closer outside none depth :=
  (h.skipLine hcloser (hplace.balanced htokens hspares)).skipBreaks hcloser

namespace Frame

/-- The outermost of the blocks that are open. -/
def bottom (top : Frame) (below : List Frame) : Frame := below.getLast?.getD top

theorem bottom_cons (frame top : Frame) (below : List Frame) :
    bottom frame (top :: below) = bottom top below := by
  rw [bottom, List.getLast?_cons]
  rfl

/-- Members change neither the scope nor the kind of a block. -/
theorem bottom_add (top : Frame) (node : Node) (below : List Frame) :
    (bottom (top.add node) below).scope = (bottom top below).scope ∧
      (bottom (top.add node) below).node.kind = (bottom top below).node.kind := by
  unfold bottom
  cases below.getLast? with
  | none => exact ⟨rfl, rfl⟩
  | some last => exact ⟨rfl, rfl⟩

/-- **A body ends with the brace that matches its own**, if every line that is passed has its braces
in pairs. The open blocks are as many as the open braces. -/
theorem run_of_enclosed (hcloser : closer.isMark .closeBrace = true) {tokens : List Token}
    (top : Frame) (below : List Frame) (errors : List Diagnostic) (tape : Tape)
    (h : tape.skipBreaks.Enclosed closer outside none below.length)
    (htokens : tape.tokens = tokens) (hbottom : (bottom top below).scope = .message) :
    (∀ diagnostic ∈ (run top below errors tape).errors, diagnostic.isFatal = false →
      diagnostic.SparesBraces tokens) →
    (∃ node, (run top below errors tape).node = some node ∧
        node.kind = (bottom top below).node.kind) ∧
      (run top below errors tape).tape.rest = outside := by
  fun_induction run top below errors tape with
  | case1 top below errors tape hnone =>
    obtain ⟨token, hpeek, -⟩ := h.exists_peek?
    rw [hnone] at hpeek
    cases hpeek
  | case2 top errors tape token hpeek hmark after =>
    -- only behind the body of a method is a semicolon passed too
    have hscope : top.scope = .message := hbottom
    have hafter : after = tape.skipBreaks.advance := by simp [after, Scope.afterBody, hscope]
    intro _
    exact ⟨⟨_, rfl, rfl⟩, hafter ▸ h.rest_advance hpeek hmark⟩
  | case3 top errors tape token hpeek hmark after next others ih =>
    rw [bottom_cons] at hbottom ⊢
    obtain ⟨hscope, hkind⟩ := bottom_add next top.node others
    rw [← hkind]
    have hreach := (tape.reaches_skipBreaks.trans (Tape.reaches_advance _)).trans
      (reaches_afterBody top.scope _)
    exact ih (h.afterBody hcloser hpeek hmark) (hreach.tokens_eq.trans htokens)
      (hscope.trans hbottom)
  | case4 top below errors tape token hpeek hmark hstatement ih =>
    intro hlines
    have hreported := (errors_prefix_run top below (errors ++ [⟨top.scope.refusal, token⟩])
      tape.skipBreaks.skipLine).subset (List.mem_append_right _ List.mem_cons_self)
    have hspares := hlines _ hreported (minor_singleton.1 (top.scope.minor_refusal token))
    have hplace : tape.skipBreaks.PointsAt token := .inl (by simp [Tape.nearest, hpeek])
    have hreach := tape.reaches_skipBreaks
    exact ih (h.refuse hcloser (hreach.tokens_eq.trans htokens) hplace hspares)
      ((hreach.trans (Tape.reaches_skipLine _)).tokens_eq.trans htokens) hbottom hlines
  | case5 top below errors tape token hpeek hmark statement hstatement node after hstart ih =>
    have hstays := h.stays_start hcloser hpeek hstatement
    rw [hstart] at hstays
    cases hstays with
    | whole henclosed =>
      obtain ⟨hscope, hkind⟩ := bottom_add top node below
      rw [← hkind]
      have hreach := tape.reaches_skipBreaks.trans (Lawful.reaches_of_ok hstart)
      exact ih henclosed (hreach.tokens_eq.trans htokens) (hscope.trans hbottom)
  | case6 top below errors tape token hpeek hmark statement hstatement frame after hstart ih =>
    have hstays := h.stays_start hcloser hpeek hstatement
    rw [hstart] at hstays
    cases hstays with
    | opened henclosed =>
      have hreach := tape.reaches_skipBreaks.trans (Lawful.reaches_of_ok hstart)
      rw [← bottom_cons frame] at hbottom ⊢
      exact ih henclosed (hreach.tokens_eq.trans htokens) hbottom
  | case7 top below errors tape token hpeek hmark statement hstatement diagnostic after hstart
      hfatal =>
    have hstays := h.stays_start hcloser hpeek hstatement
    rw [hstart] at hstays
    cases hstays with
    | refused _ hminor _ =>
      rw [hminor] at hfatal
      cases hfatal
  | case8 top below errors tape token hpeek hmark statement hstatement diagnostic after hstart
      hfatal ih =>
    intro hlines
    have hstays := h.stays_start hcloser hpeek hstatement
    rw [hstart] at hstays
    cases hstays with
    | refused henclosed hminor hplace =>
      have hreported := (errors_prefix_run top below (errors ++ [diagnostic])
        after.skipLine).subset (List.mem_append_right _ List.mem_cons_self)
      have hspares := hlines diagnostic hreported hminor
      have hreach := tape.reaches_skipBreaks.trans (Lawful.reaches_of_error hstart)
      exact ih (henclosed.refuse hcloser (hreach.tokens_eq.trans htokens) hplace hspares)
        ((hreach.trans (Tape.reaches_skipLine _)).tokens_eq.trans htokens) hbottom hlines

end Frame

/-! ### Messages -/

theorem Tape.moveTo_append (front rest : List Token) :
    (Tape.ofTokens (front ++ rest)).moveTo front.length = ⟨front.reverse, rest⟩ := by
  simp [Tape.moveTo, Tape.tokens, Tape.ofTokens]

/-- The tokens that are left tell the place. -/
theorem Tape.eq_of_tokens {front rest : List Token} (htokens : tape.tokens = front ++ rest)
    (hrest : tape.rest = rest) : tape = ⟨front.reverse, rest⟩ := by
  obtain ⟨seen, left⟩ := tape
  subst hrest
  have hseen : seen.reverse = front := List.append_cancel_right htokens
  rw [← hseen, List.reverse_reverse]

/-- The body of a message is read to its brace, and no diagnostic is fatal. -/
theorem Frame.exists_run {front : List Token} {frame : Frame}
    (hcloser : closer.isMark .closeBrace = true) (hscope : frame.scope = .message)
    (h : tape.Enclosed closer outside none 0) (htokens : tape.tokens = front ++ outside)
    (hlines : ∀ diagnostic ∈ (frame.run [] [] tape).errors, diagnostic.isFatal = false →
      diagnostic.SparesBraces (front ++ outside)) :
    ∃ node errors, frame.run [] [] tape = ⟨some node, errors, ⟨front.reverse, outside⟩⟩ ∧
      node.kind = frame.node.kind ∧ Minor errors := by
  obtain ⟨⟨node, hnode, hkind⟩, hrest⟩ := frame.run_of_enclosed hcloser [] [] tape
    (h.skipBreaks hcloser) htokens hscope hlines
  have hlast := Tape.eq_of_tokens ((frame.reaches_run [] [] tape).tokens_eq.trans htokens) hrest
  have hsettled := frame.settled_run [] [] tape minor_nil
  generalize frame.run [] [] tape = outcome at hnode hlast hsettled
  cases hsettled with
  | closed hminor =>
    cases hnode
    cases hlast
    exact ⟨node, _, rfl, hkind, hminor⟩
  | cut _ _ _ => cases hnode

/-- A message whose header is well formed is read with its body. -/
theorem Statement.read_message {seen rest : List Token} {keyword name opener : Token}
    (hname : (Terminal.blockName keyword.lexeme).admits name = true)
    (hopener : opener.isMark .openBrace = true) :
    message.read ⟨seen, [keyword, name, opener] ++ rest⟩ =
      Frame.run ⟨.message, opener, ⟨.message, keyword.lexeme, [.leaf .identifier name.lexeme]⟩⟩ []
        [] ⟨[keyword, name, opener].reverse ++ seen, rest⟩ := by
  have hheader : (header .message .message).Yields seen [keyword, name, opener]
      (.opened ⟨.message, opener, ⟨.message, keyword.lexeme, [.leaf .identifier name.lexeme]⟩⟩)
      rest := Grammar.yields_header (.cons hname (.cons hopener .nil))
  rw [read, start, hheader]

/-- **A message ends with the brace that matches its own**, whatever malformed members it has, if
the line of each diagnostic has its braces in pairs from the token of the diagnostic on. The message
is read, no diagnostic is fatal, and reading goes on right behind the brace. -/
theorem read_message_of_balanced {source : String} {before inner outside : List Token}
    {keyword name opener closer : Token}
    (htokens : tokenize source =
      before ++ keyword :: name :: opener :: (inner ++ closer :: outside))
    (hname : (Terminal.blockName keyword.lexeme).admits name = true)
    (hopener : opener.isMark .openBrace = true) (hcloser : closer.isMark .closeBrace = true)
    (hmatched : nesting? none 0 inner = some (none, 0))
    (hlines : ∀ diagnostic ∈ (Statement.message.read
        ((Tape.ofTokens (tokenize source)).moveTo before.length)).errors,
      diagnostic.isFatal = false → diagnostic.SparesBraces (tokenize source)) :
    ∃ node errors, Statement.message.read ((Tape.ofTokens (tokenize source)).moveTo before.length) =
        ⟨some node, errors,
          (Tape.ofTokens (tokenize source)).moveTo (before.length + inner.length + 4)⟩ ∧
      node.kind = .message ∧ Minor errors := by
  have hfront : tokenize source =
      (before ++ keyword :: name :: opener :: (inner ++ [closer])) ++ outside := by
    simp [htokens]
  have hstart : (Tape.ofTokens (tokenize source)).moveTo before.length =
      ⟨before.reverse, [keyword, name, opener] ++ (inner ++ closer :: outside)⟩ := by
    rw [htokens]
    exact Tape.moveTo_append _ _
  have hend : (Tape.ofTokens (tokenize source)).moveTo (before.length + inner.length + 4) =
      ⟨(before ++ keyword :: name :: opener :: (inner ++ [closer])).reverse, outside⟩ := by
    rw [hfront, ← Tape.moveTo_append]
    congr 1
    simp
    omega
  have hbody : Tape.Enclosed closer outside none 0
      ⟨[keyword, name, opener].reverse ++ before.reverse, inner ++ closer :: outside⟩ := by
    refine ⟨fun token htoken => regular_tokenize source token ?_, inner, rfl, hmatched⟩
    rw [htokens]
    simp only [List.mem_append, List.mem_cons] at htoken ⊢
    tauto
  rw [hstart, Statement.read_message hname hopener, hfront] at hlines
  rw [hend, hstart, Statement.read_message hname hopener]
  exact Frame.exists_run hcloser rfl hbody (by simp [Tape.tokens]) hlines

/-- A message with two malformed members: a number behind a comment, and an unknown block on one
line. There are braces in comments, and the last brace shares its line with a field. -/
def faultyMessage : String :=
  "message M \x7b\n/* \x7b */ 1\nenum E \x7b \x7d // \x7d\nextend F \x7b \x7d\nint32 c = 3; \x7d\n"

/-- The malformed members are reported, and reading goes on behind the last brace. -/
theorem read_message_of_balanced_faultyMessage :
    (Statement.message.read ((Tape.ofTokens (tokenize faultyMessage)).moveTo 0)).errors.length = 2 ∧
      ∃ node errors, Statement.message.read ((Tape.ofTokens (tokenize faultyMessage)).moveTo 0) =
          ⟨some node, errors, (Tape.ofTokens (tokenize faultyMessage)).moveTo 27⟩ ∧
        node.kind = .message ∧ Minor errors := by
  refine ⟨by decide +kernel, ?_⟩
  have hread := @read_message_of_balanced faultyMessage []
    (((tokenize faultyMessage).drop 3).take 23) ((tokenize faultyMessage).drop 27)
    (.ofLexeme ⟨1, 1⟩ "message") (.ofLexeme ⟨1, 9⟩ "M") (.ofLexeme ⟨1, 11⟩ "\x7b")
    (.ofLexeme ⟨5, 14⟩ "\x7d") (by decide +kernel) (by decide +kernel) (by decide +kernel)
    (by decide +kernel) (by decide +kernel) (by decide +kernel)
  have hlength : (((tokenize faultyMessage).drop 3).take 23).length = 23 := by decide +kernel
  rw [hlength] at hread
  exact hread

/-- A member that fails costs its line, but the line may hold more than the member. Here it holds
the brace that closes the message: the brace is passed with the line, so the message counts as
unterminated and is lost, although its brace is there. -/
theorem message_lost_with_line :
    ¬∀ (source : String) (before inner outside : List Token) (keyword name opener closer : Token),
      tokenize source = before ++ keyword :: name :: opener :: (inner ++ closer :: outside) →
      afterTokens none before = none → keyword.lexeme = "message" →
      (Terminal.blockName keyword.lexeme).admits name = true → opener.isMark .openBrace = true →
      closer.isMark .closeBrace = true → nesting? none 0 inner = some (none, 0) →
      ∃ node errors, Statement.message.read
          ((Tape.ofTokens (tokenize source)).moveTo before.length) =
        ⟨some node, errors,
          (Tape.ofTokens (tokenize source)).moveTo (before.length + inner.length + 4)⟩ ∧
        node.kind = .message ∧ Minor errors := by
  intro hall
  obtain ⟨node, errors, hread, -⟩ := hall "message M \x7b 1 \x7d\n" [] [.ofLexeme ⟨1, 13⟩ "1"]
    [.lineBreak ⟨2, 0⟩] (.ofLexeme ⟨1, 1⟩ "message") (.ofLexeme ⟨1, 9⟩ "M")
    (.ofLexeme ⟨1, 11⟩ "\x7b") (.ofLexeme ⟨1, 15⟩ "\x7d") (by decide +kernel) rfl rfl
    (by decide +kernel) (by decide +kernel) (by decide +kernel) (by decide +kernel)
  have hnone : (Statement.message.read
      ((Tape.ofTokens (tokenize "message M \x7b 1 \x7d\n")).moveTo 0)).node = none := by
    decide +kernel
  exact absurd ((congrArg Outcome.node hread).symm.trans hnone) (by simp)

end ProtoSchema
