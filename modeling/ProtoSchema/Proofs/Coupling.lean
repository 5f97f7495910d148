import ProtoSchema.Proofs.Erasure
import ProtoSchema.Proofs.Nesting

/-!
# Two readings side by side

Reading looks at kinds and words of tokens, and only at the next ones. So two readings of tapes that
correspond in some way stay together as long as the tokens that both pass keep the correspondence.
What a statement passes, line breaks in lists apart, are tokens that open no comment and are neither
braces nor line breaks; a brace that opens a body comes last.

* `Token.Inner`: such a token; `Terminal.inner_of_admits` finds them.
* `Coupling`: a correspondence between tapes and between tokens, and what keeps it.
* `Coupling.Couples`: two parses end alike on tapes that correspond, and a diagnostic points at the
  next token or at the last one that was passed; one lemma for each way to build a parse.
-/

namespace ProtoSchema

open Parse

variable {α β γ δ : Type} {tape tape' after after' : Tape} {token token' : Token}

/-! ### Tokens inside statements -/

/-- A token that is no line break and no brace, and opens no comment. -/
structure Token.Inner (token : Token) : Prop where
  lineEnd : token.isLineEnd = false
  comment : token.inComment none = false
  opener : token.isMark .openBrace = false
  closer : token.isMark .closeBrace = false

/-- Whether a mark is a brace. -/
def Punctuation.isBrace (sign : Punctuation) : Bool := sign == openBrace || sign == closeBrace

/-- Whether the tokens of a class are all inside statements. -/
def Terminal.isInner : Terminal → Bool
  | word lexeme => Lexeme.isIdentifier lexeme
  | mark sign => !sign.isBrace
  | eitherMark first second => !first.isBrace && !second.isBrace
  | oneofMember => false
  | _ => true

/-- A word that is a name or a path is inside a statement. -/
theorem Token.Regular.inner_of_isReference (hregular : token.Regular)
    (h : Lexeme.isReference token.lexeme = true) : token.Inner := by
  obtain ⟨hline, hblock⟩ := Lexeme.not_opens_of_isReference h
  have hlexeme : ∀ word, Lexeme.isReference word = false → token.lexeme ≠ word := by
    rintro word hword rfl
    rw [h] at hword
    cases hword
  refine ⟨?_, by simp [inComment, hline, hblock], ?_, ?_⟩
  · rw [← Bool.not_eq_true]
    intro hend
    exact hlexeme "\n" (by decide) (hregular.lexeme_of_isLineEnd hend)
  · exact beq_eq_false_iff_ne.2 (hlexeme _ (by decide))
  · exact beq_eq_false_iff_ne.2 (hlexeme _ (by decide))

/-- A token is written as one mark at most. -/
theorem Token.eq_of_isMark {first second : Punctuation} (h : token.isMark first = true)
    (h' : token.isMark second = true) : first = second :=
  Punctuation.text_injective ((beq_iff_eq.1 h).symm.trans (beq_iff_eq.1 h'))

/-- A mark is no line break. -/
theorem Token.Regular.isLineEnd_of_isMark (hregular : token.Regular) {sign : Punctuation}
    (h : token.isMark sign = true) : token.isLineEnd = false :=
  hregular.isLineEnd_of_admits (show (Terminal.mark sign).admits token = true from h) (by simp)

/-- Whether a mark is a token of a class. -/
def Terminal.hasMark (terminal : Terminal) (sign : Punctuation) : Bool :=
  match terminal with
  | word lexeme => lexeme == sign.text
  | mark other => other == sign
  | eitherMark first second => first == sign || second == sign
  | _ => false

/-- A mark belongs to no other classes of tokens. -/
theorem Terminal.isMark_of_admits {terminal : Terminal} {sign : Punctuation}
    (hterminal : terminal.hasMark sign = false) (hregular : token.Regular)
    (h : terminal.admits token = true) : token.isMark sign = false := by
  rw [← Bool.not_eq_true]
  intro hmark
  have hlexeme : token.lexeme = sign.text := beq_iff_eq.1 hmark
  have hreference : Lexeme.isReference sign.text = false := by cases sign <;> decide
  have hpath : Lexeme.isPath sign.text = false := by cases sign <;> decide
  have hidentifier : Lexeme.isIdentifier sign.text = false := by cases sign <;> decide
  have htype : Lexeme.isTypeName sign.text = false := by cases sign <;> decide
  have hquoted : Lexeme.isQuoted sign.text = false := by cases sign <;> decide
  have hinteger : Lexeme.integer? sign.text = none := by cases sign <;> decide
  have hkey : Scalar.mapKeyOfText? sign.text = none := by cases sign <;> decide
  have hmember : Scope.oneof.statement? sign.text = none := by cases sign <;> decide
  have hmax : sign.text ≠ "max" := by cases sign <;> decide
  have hnumber : token.isNumber = false := by
    rw [← Bool.not_eq_true]
    intro hnumber
    -- the kind says nothing about the word, unless the token is one of a text
    have hword := hregular.isNumber_lexeme hnumber
    rw [hlexeme] at hword
    cases sign <;> exact absurd hword (by decide)
  cases terminal with
  | word word =>
    rw [hasMark, beq_eq_false_iff_ne] at hterminal
    exact hterminal ((beq_iff_eq.1 h).symm.trans hlexeme)
  | mark other =>
    rw [hasMark, beq_eq_false_iff_ne] at hterminal
    exact hterminal (token.eq_of_isMark h hmark)
  | eitherMark first second =>
    rw [hasMark, Bool.or_eq_false_iff, beq_eq_false_iff_ne, beq_eq_false_iff_ne] at hterminal
    rw [admits, Bool.or_eq_true] at h
    rcases h with h | h
    · exact hterminal.1 (token.eq_of_isMark h hmark)
    · exact hterminal.2 (token.eq_of_isMark h hmark)
  | _ =>
    simp [admits, hlexeme, Token.isQuoted, hnumber, hreference, hpath, hidentifier, htype, hquoted,
      hinteger, hkey, hmember, hmax] at h

/-- A brace belongs to no class of tokens inside statements. -/
theorem Terminal.hasMark_of_isInner {terminal : Terminal} {sign : Punctuation}
    (hterminal : terminal.isInner = true) (hsign : sign.isBrace = true) :
    terminal.hasMark sign = false := by
  have hne : ∀ {other : Punctuation}, (!other.isBrace) = true → (other == sign) = false := by
    intro other hother
    rw [beq_eq_false_iff_ne]
    rintro rfl
    rw [hsign] at hother
    cases hother
  cases terminal with
  | word word =>
    have hidentifier : Lexeme.isIdentifier sign.text = false := by cases sign <;> decide
    rw [hasMark, beq_eq_false_iff_ne]
    rintro rfl
    rw [isInner, hidentifier] at hterminal
    cases hterminal
  | mark other => exact hne hterminal
  | eitherMark first second =>
    rw [isInner, Bool.and_eq_true] at hterminal
    rw [hasMark, hne hterminal.1, hne hterminal.2]
    rfl
  | _ => rfl

/-- **Tokens of such a class are inside statements.** -/
theorem Terminal.inner_of_admits {terminal : Terminal} (hterminal : terminal.isInner = true)
    (hregular : token.Regular) (h : terminal.admits token = true) : token.Inner := by
  have hplain : terminal.isPlain = true := by
    cases terminal with
    | word word =>
      have hreference : Lexeme.isReference word = true :=
        Lexeme.isReference_of_isPath (Lexeme.isPath_of_isIdentifier hterminal)
      obtain ⟨hline, hblock⟩ := Lexeme.not_opens_of_isReference hreference
      simp [isPlain, hline, hblock]
    | oneofMember => cases hterminal
    | _ => rfl
  have hword : terminal ≠ .word "\n" := by
    rintro rfl
    exact absurd hterminal (by decide)
  have hline : Lexeme.opensLineComment token.lexeme = false :=
    not_slash_of_admits hplain (.inl rfl) hregular h
  have hblock : Lexeme.opensBlockComment token.lexeme = false :=
    not_slash_of_admits hplain (.inr rfl) hregular h
  exact ⟨hregular.isLineEnd_of_admits h hword, by simp [Token.inComment, hline, hblock],
    isMark_of_admits (hasMark_of_isInner hterminal rfl) hregular h,
    isMark_of_admits (hasMark_of_isInner hterminal rfl) hregular h⟩

/-- The first token of a statement that is no comment is inside a statement. -/
theorem Scope.inner_of_statement? {scope : Scope} {statement : Statement}
    (hregular : token.Regular) (h : scope.statement? token.lexeme = some statement)
    (hcomment : ∀ mark, statement ≠ .comment mark) : token.Inner := by
  refine ⟨Grammar.isLineEnd_of_statement? hregular h, ?_, Grammar.isMark_of_statement? h _,
    Grammar.isMark_of_statement? h _⟩
  unfold statement? at h
  split at h
  · cases h
    exact absurd rfl (hcomment _)
  · split at h
    · cases h
      exact absurd rfl (hcomment _)
    · rename_i hline hblock
      simp [Token.inComment, hline, hblock]

/-! ### Couplings -/

/-- A token is itself, at its own place. -/
theorem Token.exists_position (h : token = token') :
    ∃ position, token' = { token with position := position } :=
  ⟨token.position, h.symm⟩

/-- A correspondence between the tapes and the tokens of two readings. -/
structure Coupling where
  /-- Tapes that correspond. -/
  rel : Tape → Tape → Prop
  /-- Tokens that correspond. -/
  twin : Token → Token → Prop
  /-- Tapes that correspond behind a brace that opens a body. -/
  opened : Tape → Tape → Prop
  /-- A token that both may pass. -/
  passes : Token → Prop
  /-- Where the first reading may come. -/
  kept : Tape → Prop
  kept_of_reaches : ∀ {tape after : Tape}, tape.Reaches after → kept after → kept tape
  twin_eq : ∀ {token token' : Token}, twin token token' →
    ∃ position, token' = { token with position := position }
  peek : ∀ {tape tape' : Tape}, rel tape tape' → Option.Rel twin tape.peek? tape'.peek?
  nearest : ∀ {tape tape' : Tape}, rel tape tape' → twin tape.nearest tape'.nearest
  advance : ∀ {tape tape' : Tape} {token : Token}, rel tape tape' → tape.peek? = some token →
    passes token → kept tape.advance → rel tape.advance tape'.advance
  opens : ∀ {tape tape' : Tape} {token : Token}, rel tape tape' → tape.peek? = some token →
    token.isMark .openBrace = true → kept tape.advance → opened tape.advance tape'.advance
  skipBreaks : ∀ {tape tape' : Tape}, rel tape tape' → kept tape.skipBreaks →
    rel tape.skipBreaks tape'.skipBreaks
  /-- Behind the word for streams both readings look at one more token. -/
  stream : ∀ {tape tape' : Tape} {token : Token}, rel tape tape' → tape.peek? = some token →
    token.lexeme = "stream" → kept tape.advance
  passes_of_inner : ∀ {tape tape' : Tape} {token : Token}, rel tape tape' →
    tape.peek? = some token → (token.Regular → token.Inner) → passes token

namespace Coupling

variable {coupling : Coupling} {post : α → β → Tape → Tape → Prop}
  {post' : γ → δ → Tape → Tape → Prop}

/-- A token is the one that a diagnostic points at: the nearest one, or the one just passed. -/
def PointsAt (coupling : Coupling) (tape : Tape) (token : Token) : Prop :=
  tape.nearest = token ∨ coupling.passes token ∧ tape.seen.head? = some token

/-- Two parses ended alike: with values and tapes that satisfy a relation, or with diagnostics of
one problem at tokens that correspond. -/
inductive Agrees (coupling : Coupling) (post : α → β → Tape → Tape → Prop) :
    EStateM.Result Diagnostic Tape α → EStateM.Result Diagnostic Tape β → Prop
  | ok {value : α} {value' : β} {tape tape' : Tape} (h : post value value' tape tape') :
      Agrees coupling post (.ok value tape) (.ok value' tape')
  | error {problem : Problem} {token token' : Token} {tape tape' : Tape}
      (h : coupling.rel tape tape') (htwin : coupling.twin token token')
      (hplace : coupling.PointsAt tape token) :
      Agrees coupling post (.error ⟨problem, token⟩ tape) (.error ⟨problem, token'⟩ tape')

/-- Two parses end alike on tapes that correspond, as long as the first comes no further than it
may. -/
def Couples (coupling : Coupling) (post : α → β → Tape → Tape → Prop) (parse : Parse α)
    (parse' : Parse β) : Prop :=
  ∀ ⦃tape tape' : Tape⦄, coupling.rel tape tape' → coupling.kept (endTape (parse tape)) →
    Agrees coupling post (parse tape) (parse' tape')

/-- Values that correspond, on tapes that do. -/
def along (coupling : Coupling) (values : α → β → Prop) (value : α) (value' : β)
    (tape tape' : Tape) : Prop :=
  values value value' ∧ coupling.rel tape tape'

/-- Tokens that correspond, on tapes that have just passed them. -/
def passed (coupling : Coupling) (token token' : Token) (tape tape' : Tape) : Prop :=
  coupling.twin token token' ∧ coupling.rel tape tape' ∧ coupling.passes token ∧
    tape.seen.head? = some token

/-- What a statement leads to: the same node, or the same block but for the place of its brace. -/
inductive Begun (coupling : Coupling) : Reading → Reading → Tape → Tape → Prop
  | whole {node : Node} {tape tape' : Tape} (h : coupling.rel tape tape') :
      Begun coupling (.whole node) (.whole node) tape tape'
  | opened {scope : Scope} {opener opener' : Token} {node : Node} {tape tape' : Tape}
      (htwin : coupling.twin opener opener') (h : coupling.opened tape tape') :
      Begun coupling (.opened ⟨scope, opener, node⟩) (.opened ⟨scope, opener', node⟩) tape tape'

/-- A sequence ends alike if its first part does, and its second part after it. -/
theorem Agrees.bind {parse : Parse α} {parse' : Parse β} {next : α → Parse γ}
    {next' : β → Parse δ} [∀ value, Lawful (next value)]
    (hkept : coupling.kept (endTape ((parse >>= next) tape)))
    (h : coupling.kept (endTape (parse tape)) → Agrees coupling post (parse tape) (parse' tape'))
    (hnext : ∀ {value value' middle middle'}, parse tape = .ok value middle →
      post value value' middle middle' → coupling.kept (endTape (next value middle)) →
      Agrees coupling post' (next value middle) (next' value' middle')) :
    Agrees coupling post' ((parse >>= next) tape) ((parse' >>= next') tape') := by
  rw [bind_apply] at hkept
  rw [bind_apply, bind_apply]
  -- where the first part comes to is on the way to where the whole does
  have hfirst : coupling.kept (endTape (parse tape)) := by
    cases hparse : parse tape with
    | error diagnostic after =>
      rw [hparse] at hkept
      exact hkept
    | ok value middle =>
      rw [hparse] at hkept
      exact coupling.kept_of_reaches (Lawful.reaches middle) hkept
  have hagrees := h hfirst
  generalize parse tape = result at hagrees hkept hnext
  generalize parse' tape' = result' at hagrees
  cases hagrees with
  | ok hmiddle => exact hnext rfl hmiddle hkept
  | error hend htwin hplace => exact .error hend htwin hplace

theorem couples_pure {value : α} {value' : β} {values : α → β → Prop} (h : values value value') :
    Couples coupling (coupling.along values) (pure value) (pure value') := by
  intro tape tape' hrel _
  exact .ok ⟨h, hrel⟩

theorem couples_return (value : α) :
    Couples coupling (coupling.along Eq) (pure value) (pure value) :=
  couples_pure rfl

namespace Couples

/-- The first part gives the same value in both readings. -/
theorem bind {parse parse' : Parse α} {next : α → Parse γ} {next' : α → Parse δ}
    [∀ value, Lawful (next value)] (h : Couples coupling (coupling.along Eq) parse parse')
    (hnext : ∀ value, Couples coupling post' (next value) (next' value)) :
    Couples coupling post' (parse >>= next) (parse' >>= next') := by
  intro tape tape' hrel hkept
  refine .bind hkept (h hrel) ?_
  rintro value value' middle middle' - ⟨rfl, hmiddle⟩ hlater
  exact hnext value hmiddle hlater

/-- The first part gives tokens that correspond; all that tells them apart is their place. -/
theorem bind_token {parse parse' : Parse Token} {next : Token → Parse γ} {next' : Token → Parse δ}
    [∀ token, Lawful (next token)] (h : Couples coupling coupling.passed parse parse')
    (hnext : ∀ (token : Token) (position : Position),
      Couples coupling post' (next token) (next' { token with position := position })) :
    Couples coupling post' (parse >>= next) (parse' >>= next') := by
  intro tape tape' hrel hkept
  refine .bind hkept (h hrel) ?_
  rintro token token' middle middle' - ⟨htwin, hmiddle, -⟩ hlater
  obtain ⟨position, rfl⟩ := coupling.twin_eq htwin
  exact hnext token position hmiddle hlater

/-- The first part gives a token in both readings or in none. -/
theorem bind_option {parse parse' : Parse (Option Token)} {next : Option Token → Parse γ}
    {next' : Option Token → Parse δ} [∀ token?, Lawful (next token?)]
    (h : Couples coupling (coupling.along (Option.Rel coupling.twin)) parse parse')
    (hnone : Couples coupling post' (next none) (next' none))
    (hsome : ∀ (token : Token) (position : Position), Couples coupling post' (next (some token))
      (next' (some { token with position := position }))) :
    Couples coupling post' (parse >>= next) (parse' >>= next') := by
  intro tape tape' hrel hkept
  refine .bind hkept (h hrel) ?_
  rintro token? token?' middle middle' - ⟨htokens, hmiddle⟩ hlater
  cases htokens with
  | none => exact hnone hmiddle hlater
  | some htwin =>
    obtain ⟨position, rfl⟩ := coupling.twin_eq htwin
    exact hsome _ position hmiddle hlater

end Couples

theorem couples_ite {test : Bool} {yes no : Parse α} {yes' no' : Parse β}
    (hyes : Couples coupling post yes yes') (hno : Couples coupling post no no') :
    Couples coupling post (if test then yes else no) (if test then yes' else no') := by
  cases test
  · exact hno
  · exact hyes

/-! ### Single tokens -/

theorem peek_of_none (h : coupling.rel tape tape') (hpeek : tape.peek? = none) :
    tape'.peek? = none := by
  have hrel := coupling.peek h
  rw [hpeek] at hrel
  cases hnext : tape'.peek? with
  | none => rfl
  | some token' =>
    rw [hnext] at hrel
    cases hrel

/-- The next tokens differ in their place only. -/
theorem peek_of_some (h : coupling.rel tape tape') (hpeek : tape.peek? = some token) :
    ∃ position, coupling.twin token { token with position := position } ∧
      tape'.peek? = some { token with position := position } := by
  have hrel := coupling.peek h
  rw [hpeek] at hrel
  cases hnext : tape'.peek? with
  | none =>
    rw [hnext] at hrel
    cases hrel
  | some token' =>
    rw [hnext] at hrel
    cases hrel with
    | some htwin =>
      obtain ⟨position, rfl⟩ := coupling.twin_eq htwin
      exact ⟨position, htwin, rfl⟩

theorem pointsAt_of_peek? (h : tape.peek? = some token) : coupling.PointsAt tape token :=
  .inl (by simp [Tape.nearest, h])

theorem head?_seen_advance (h : tape.peek? = some token) :
    tape.advance.seen.head? = some token := by
  unfold Tape.advance
  rw [Frame.rest_of_peek? h]
  rfl

/-- A rule about the token that was just passed. -/
theorem agrees_require {kept : Bool} {rule : Violation}
    (h : coupling.passed token token' tape tape') :
    Agrees coupling (coupling.along Eq) (require kept rule token tape)
      (require kept rule token' tape') := by
  obtain ⟨htwin, hrel, hseen⟩ := h
  unfold require
  split
  · exact .ok ⟨rfl, hrel⟩
  · exact .error hrel htwin (.inr hseen)

theorem check_of_none {terminal : Terminal} (h : tape.peek? = none) :
    check terminal tape = .error ⟨.ranOut terminal, tape.nearest⟩ tape := by
  unfold check
  rw [Tape.rest_of_peek?_eq_none h]

theorem check_of_some {terminal : Terminal} (h : tape.peek? = some token) :
    check terminal tape =
      if terminal.admits token then .ok token tape
      else .error ⟨.unexpected terminal, token⟩ tape := by
  unfold check
  rw [Frame.rest_of_peek? h]

/-- A token is looked at in both readings. -/
theorem agrees_check (terminal : Terminal) (hrel : coupling.rel tape tape') :
    Agrees coupling (fun token token' after after' => coupling.twin token token' ∧
      tape.peek? = some token ∧ terminal.admits token = true ∧ after = tape ∧ after' = tape')
      (check terminal tape) (check terminal tape') := by
  cases hpeek : tape.peek? with
  | none =>
    rw [check_of_none hpeek, check_of_none (peek_of_none hrel hpeek)]
    exact .error hrel (coupling.nearest hrel) (.inl rfl)
  | some token =>
    obtain ⟨position, htwin, hpeek'⟩ := peek_of_some hrel hpeek
    have hadmits : terminal.admits { token with position := position } = terminal.admits token := by
      cases terminal <;> rfl
    rw [check_of_some hpeek, check_of_some hpeek', hadmits]
    split
    · rename_i hyes
      exact .ok ⟨htwin, rfl, hyes, rfl, rfl⟩
    · exact .error hrel htwin (pointsAt_of_peek? hpeek)

/-- A token is passed in both readings, and what holds then depends on what it is. -/
theorem agrees_expect {post : Token → Token → Tape → Tape → Prop} (terminal : Terminal)
    (hrel : coupling.rel tape tape')
    (hpost : ∀ {token token'}, tape.peek? = some token → terminal.admits token = true →
      coupling.twin token token' → coupling.kept tape.advance →
      post token token' tape.advance tape'.advance)
    (hkept : coupling.kept (endTape (expect terminal tape))) :
    Agrees coupling post (expect terminal tape) (expect terminal tape') := by
  have hcheck := agrees_check terminal hrel
  unfold expect at hkept ⊢
  generalize check terminal tape = result at hcheck hkept
  generalize check terminal tape' = result' at hcheck
  cases hcheck with
  | ok h =>
    obtain ⟨htwin, hpeek, hadmits, rfl, rfl⟩ := h
    exact .ok (hpost hpeek hadmits htwin hkept)
  | error hend htwin hplace => exact .error hend htwin hplace

theorem couples_expect (terminal : Terminal) (hterminal : terminal.isInner = true) :
    Couples coupling coupling.passed (expect terminal) (expect terminal) := by
  intro tape tape' hrel hkept
  refine agrees_expect terminal hrel ?_ hkept
  intro token token' hpeek hadmits htwin hafter
  have hpasses := coupling.passes_of_inner hrel hpeek fun hregular =>
    terminal.inner_of_admits hterminal hregular hadmits
  exact ⟨htwin, coupling.advance hrel hpeek hpasses hafter, hpasses, head?_seen_advance hpeek⟩

/-- A token is passed, a rule about it is checked, and reading goes on. -/
theorem Couples.bind_checked {terminal : Terminal} {rule rule' : Token → Parse Unit}
    {next next' : Token → Parse γ} [∀ token, Lawful (rule token)] [∀ token, Lawful (next token)]
    (hterminal : terminal.isInner = true)
    (hrule : ∀ {token position} {tape tape' : Tape},
      coupling.passed token { token with position := position } tape tape' →
      coupling.kept (endTape (rule token tape)) →
      Agrees coupling (coupling.along Eq) (rule token tape)
        (rule' { token with position := position } tape'))
    (hnext : ∀ (token : Token) (position : Position),
      Couples coupling (coupling.along Eq) (next token)
        (next' { token with position := position })) :
    Couples coupling (coupling.along Eq)
      (expect terminal >>= fun token => rule token >>= fun _ => next token)
      (expect terminal >>= fun token => rule' token >>= fun _ => next' token) := by
  intro tape tape' hrel hkept
  refine .bind hkept (couples_expect terminal hterminal hrel) ?_
  intro token token' middle middle' _ hpassed hlater
  obtain ⟨position, rfl⟩ := coupling.twin_eq hpassed.1
  refine .bind hlater (hrule hpassed) ?_
  rintro _ _ last last' - ⟨-, hlast⟩ hend
  exact hnext token position hlast hend

theorem couples_accept? {test : Token → Bool}
    (htest : ∀ (token : Token) (position : Position),
      test { token with position := position } = test token)
    (hinner : ∀ token : Token, test token = true → token.Regular → token.Inner) :
    Couples coupling (coupling.along (Option.Rel coupling.twin)) (accept? test)
      (accept? test) := by
  intro tape tape' hrel hkept
  unfold accept? Tape.takeIf at hkept ⊢
  cases hpeek : tape.peek? with
  | none =>
    rw [peek_of_none hrel hpeek]
    exact .ok ⟨.none, hrel⟩
  | some token =>
    obtain ⟨position, htwin, hpeek'⟩ := peek_of_some hrel hpeek
    rw [hpeek] at hkept
    rw [hpeek']
    cases hpass : test token with
    | false =>
      simp only [Option.filter, htest, hpass, Bool.false_eq_true, if_false]
      exact .ok ⟨.none, hrel⟩
    | true =>
      simp only [Option.filter, htest, hpass, if_true] at hkept ⊢
      have hpasses := coupling.passes_of_inner hrel hpeek (hinner token hpass)
      exact .ok ⟨.some htwin, coupling.advance hrel hpeek hpasses hkept⟩

theorem couples_skipBreaks :
    Couples coupling (coupling.along Eq) Parse.skipBreaks Parse.skipBreaks :=
  fun _ _ hrel hkept => .ok ⟨rfl, coupling.skipBreaks hrel hkept⟩

theorem couples_refuseMixed {test : Token → Bool}
    (htest : ∀ (token : Token) (position : Position),
      test { token with position := position } = test token) :
    Couples coupling (coupling.along Eq) (refuseMixed test) (refuseMixed test) := by
  intro tape tape' hrel _
  unfold refuseMixed
  cases hpeek : tape.peek? with
  | none =>
    rw [peek_of_none hrel hpeek]
    exact .ok ⟨rfl, hrel⟩
  | some token =>
    obtain ⟨position, htwin, hpeek'⟩ := peek_of_some hrel hpeek
    rw [hpeek']
    simp only [Option.filter, htest]
    cases test token
    · exact .ok ⟨rfl, hrel⟩
    · exact .error hrel htwin (pointsAt_of_peek? hpeek)

/-- The word for streams is told from a type by the token after it. -/
theorem couples_streamWord :
    Couples coupling (coupling.along (Option.Rel coupling.twin)) streamWord streamWord := by
  intro tape tape' hrel _
  have hnone : ∀ {tape : Tape}, (∀ token, tape.peek? = some token → token.lexeme ≠ "stream") →
      streamWord tape = .ok none tape := by
    intro tape h
    unfold streamWord
    split
    · rename_i word next others hrest
      have hword := h word (by simp [Tape.peek?, hrest])
      simp [hword]
    · rfl
  have hsome : ∀ {tape : Tape} {word : Token}, tape.peek? = some word → word.lexeme = "stream" →
      streamWord tape =
        if tape.advance.peek?.any (!·.isMark .closeParen) then .ok (some word) tape.advance
        else .ok none tape := by
    intro tape word hpeek hword
    have hrest := Frame.rest_of_peek? hpeek
    unfold streamWord
    rw [hrest]
    cases hnext : tape.advance.rest with
    | nil => simp [Tape.peek?, hnext]
    | cons next others => simp [Tape.peek?, hnext, hword]
  cases hpeek : tape.peek? with
  | none =>
    have hpeek' := peek_of_none hrel hpeek
    rw [hnone (by simp [hpeek]), hnone (by simp [hpeek'])]
    exact .ok ⟨.none, hrel⟩
  | some token =>
    obtain ⟨position, htwin, hpeek'⟩ := peek_of_some hrel hpeek
    by_cases hword : token.lexeme = "stream"
    · have hkept := coupling.stream hrel hpeek hword
      have hpasses := coupling.passes_of_inner hrel hpeek fun hregular =>
        hregular.inner_of_isReference (by rw [hword]; decide)
      have hafter := coupling.advance hrel hpeek hpasses hkept
      have hnext : tape'.advance.peek?.any (!·.isMark .closeParen) =
          tape.advance.peek?.any (!·.isMark .closeParen) := by
        cases hnext : tape.advance.peek? with
        | none => rw [peek_of_none hafter hnext]
        | some next =>
          obtain ⟨place, -, hnext'⟩ := peek_of_some hafter hnext
          rw [hnext']
          rfl
      rw [hsome hpeek hword, hsome hpeek' hword, hnext]
      split
      · exact .ok ⟨.some htwin, hafter⟩
      · exact .ok ⟨.none, hrel⟩
    · rw [hnone (by simpa [hpeek] using hword), hnone (by simpa [hpeek'] using hword)]
      exact .ok ⟨.none, hrel⟩

/-- Items that are read alike, one after the other. -/
theorem couples_separated {item : Parse α} [Lawful item] {close : Punctuation}
    (hclose : close.isBrace = false) (hitem : Couples coupling (coupling.along Eq) item item) :
    Couples coupling (coupling.along Eq) (separated item close) (separated item close) := by
  intro tape
  induction hn : tape.remaining using Nat.strongRecOn generalizing tape with
  | ind n ih =>
    intro tape' hrel hkept
    subst hn
    rw [separated_eq] at hkept ⊢
    refine .bind hkept (hitem hrel) ?_
    rintro value _ middle middle' hvalue ⟨rfl, hmiddle⟩ hkept
    refine .bind hkept (couples_expect _ (by simp [Terminal.isInner, hclose]; rfl) hmiddle) ?_
    rintro mark mark' last last' hmark ⟨htwin, hlast, -⟩ hkept
    obtain ⟨position, rfl⟩ := coupling.twin_eq htwin
    -- the comma was passed, so that the induction hypothesis holds behind it
    have hlt := Nat.lt_of_lt_of_le (Consumes.shorter hmark)
      (Lawful.reaches_of_ok hvalue).remaining_le
    have hsame : Token.isMark { mark with position := position } close = mark.isMark close := rfl
    rw [hsame]
    split
    · exact .ok ⟨rfl, hlast⟩
    · rename_i hopen
      rw [if_neg hopen] at hkept
      refine .bind hkept (ih _ hlt rfl hlast) ?_
      rintro values _ later later' - ⟨rfl, hlater⟩ -
      exact .ok ⟨rfl, hlater⟩

end Coupling

end ProtoSchema
