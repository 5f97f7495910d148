import ProtoSchema.Proofs.Coupling

/-!
# Statements side by side

Each statement is a sequence of tokens that are looked at or passed, so that coupled readings of it
end alike: with the same node, with a block that has the same head, or with the same problem. Only
comments are left out, since they pass any tokens.

* `Coupling.agrees_header`, `Coupling.couples_method`: statements with a body, up to its brace.
* `Coupling.agrees_start`: all statements but comments.
-/

namespace ProtoSchema

open Parse

namespace Coupling

variable {coupling : Coupling} {tape tape' : Tape}

/-! ### Statements without a body -/

theorem couples_version : Couples coupling (coupling.along Eq) version version := by
  refine (couples_expect _ (by decide)).bind_token fun keyword _ => ?_
  refine (couples_expect _ rfl).bind_token fun _ _ => ?_
  refine Couples.bind_checked rfl (fun hpassed _ => agrees_require hpassed) fun literal _ => ?_
  refine (couples_expect _ rfl).bind_token fun _ _ => ?_
  exact couples_return _

theorem couples_package : Couples coupling (coupling.along Eq) package package := by
  refine (couples_expect _ (by decide)).bind_token fun keyword _ => ?_
  refine (couples_expect _ rfl).bind_token fun name _ => ?_
  refine (couples_expect _ rfl).bind_token fun _ _ => ?_
  exact couples_return _

theorem couples_importFile : Couples coupling (coupling.along Eq) importFile importFile := by
  refine (couples_expect _ (by decide)).bind_token fun keyword _ => ?_
  have hmodifier : ∀ token : Token, (ImportModifier.ofText? token.lexeme).isSome = true →
      token.Regular → token.Inner := by
    intro token htoken hregular
    obtain ⟨modifier, hmodifier⟩ := Option.isSome_iff_exists.1 htoken
    have htext : modifier.text = token.lexeme := by simpa using List.find?_some hmodifier
    refine hregular.inner_of_isReference ?_
    rw [← htext]
    cases modifier <;> decide
  refine (couples_accept? (fun _ _ => rfl) hmodifier).bind_option ?_ fun modifier _ => ?_
  all_goals
    refine (couples_expect _ rfl).bind_token fun path _ => ?_
    refine (couples_expect _ rfl).bind_token fun _ _ => ?_
    exact couples_return _

/-- A mark that is no brace may be there or not. -/
theorem couples_acceptMark {sign : Punctuation} (hsign : sign.isBrace = false) :
    Couples coupling (coupling.along (Option.Rel coupling.twin)) (accept? (·.isMark sign))
      (accept? (·.isMark sign)) :=
  couples_accept? (fun _ _ => rfl) fun token htoken hregular =>
    Terminal.inner_of_admits (by simp [Terminal.isInner, hsign]) hregular
      (show (Terminal.mark sign).admits token = true from htoken)

theorem couples_extensionName :
    Couples coupling (coupling.along Eq) Parse.extensionName Parse.extensionName := by
  refine (couples_expect _ rfl).bind_token fun extension _ => ?_
  refine (couples_expect _ rfl).bind_token fun _ _ => ?_
  have hmember : ∀ token : Token, Lexeme.isMemberPath token.lexeme = true →
      token.Regular → token.Inner := by
    intro token htoken hregular
    exact hregular.inner_of_isReference (by rw [Lexeme.isReference, htoken, Bool.or_true])
  refine (couples_accept? (fun _ _ => rfl) hmember).bind_option ?_ fun member _ => ?_
  · exact couples_return _
  · exact couples_return _

theorem couples_optionName :
    Couples coupling (coupling.along Eq) Parse.optionName Parse.optionName := by
  refine (couples_acceptMark rfl).bind_option ?_ fun paren _ => ?_
  · exact (couples_expect _ rfl).bind_token fun name _ => couples_return _
  · exact couples_extensionName

theorem couples_optionValue :
    Couples coupling (coupling.along Eq) Parse.optionValue Parse.optionValue :=
  (couples_expect _ rfl).bind_token fun _ _ => couples_return _

theorem couples_layout (multiline : Bool) :
    Couples coupling (coupling.along Eq) (layout multiline) (layout multiline) :=
  couples_ite couples_skipBreaks (couples_return _)

theorem couples_assignment (multiline : Bool) :
    Couples coupling (coupling.along Eq) (assignment multiline) (assignment multiline) := by
  refine (couples_layout multiline).bind fun _ => ?_
  refine couples_optionName.bind fun name => ?_
  refine (couples_layout multiline).bind fun _ => ?_
  refine (couples_expect _ rfl).bind_token fun _ _ => ?_
  refine (couples_layout multiline).bind fun _ => ?_
  refine couples_optionValue.bind fun value => ?_
  exact couples_return _

theorem couples_option : Couples coupling (coupling.along Eq) option option := by
  refine (couples_expect _ (by decide)).bind_token fun _ _ => ?_
  refine (couples_assignment false).bind fun node => ?_
  exact (couples_expect _ rfl).bind_token fun _ _ => couples_return _

theorem couples_listedOption :
    Couples coupling (coupling.along Eq) listedOption listedOption := by
  refine (couples_assignment true).bind fun node => ?_
  exact couples_skipBreaks.bind fun _ => couples_return _

theorem couples_optionList : Couples coupling (coupling.along Eq) optionList optionList := by
  refine (couples_acceptMark rfl).bind_option ?_ fun bracket _ => ?_
  · exact couples_return _
  · exact couples_separated rfl couples_listedOption

theorem couples_reservedName :
    Couples coupling (coupling.along Eq) Parse.reservedName Parse.reservedName := by
  refine (couples_refuseMixed fun _ _ => rfl).bind fun _ => ?_
  exact (couples_expect _ rfl).bind_token fun literal _ => couples_return _

/-- The rules for the end of a range are about the token that was just passed. -/
theorem agrees_requireRangeEnd {domain : NumberDomain} {first stop : Token}
    {place position : Position}
    (h : coupling.passed stop { stop with position := position } tape tape')
    (hkept : coupling.kept (endTape (requireRangeEnd domain first stop tape))) :
    Agrees coupling (coupling.along Eq) (requireRangeEnd domain first stop tape)
      (requireRangeEnd domain { first with position := place }
        { stop with position := position } tape') := by
  unfold requireRangeEnd at hkept ⊢
  by_cases hinteger : (Lexeme.integer? stop.lexeme).isSome = true
  · simp only [hinteger, if_true] at hkept ⊢
    refine .bind hkept (fun _ => agrees_require h) ?_
    rintro _ _ middle middle' hfirst ⟨-, hmiddle⟩ -
    -- a rule that is kept passes no token
    have hstay : middle = tape := by
      unfold requireIn require at hfirst
      split at hfirst <;> cases hfirst
      rfl
    exact agrees_require ⟨h.1, hmiddle, hstay ▸ h.2.2⟩
  · simp only [hinteger]
    exact .ok ⟨rfl, h.2.1⟩

theorem couples_rangeEnd (domain : NumberDomain) (first : Token) (place : Position) :
    Couples coupling (coupling.along Eq) (Parse.rangeEnd domain first)
      (Parse.rangeEnd domain { first with position := place }) := by
  have hto : ∀ token : Token, (token.lexeme == "to") = true → token.Regular → token.Inner := by
    intro token htoken hregular
    exact hregular.inner_of_isReference (by rw [beq_iff_eq.1 htoken]; decide)
  refine (couples_accept? (fun _ _ => rfl) hto).bind_option ?_ fun word _ => ?_
  · exact couples_return _
  · exact Couples.bind_checked rfl agrees_requireRangeEnd fun stop _ => couples_return _

theorem couples_reservedRange (domain : NumberDomain) :
    Couples coupling (coupling.along Eq) (reservedRange domain) (reservedRange domain) := by
  refine (couples_refuseMixed fun _ _ => rfl).bind fun _ => ?_
  refine Couples.bind_checked rfl (fun hpassed _ => agrees_require hpassed) fun first place => ?_
  exact (couples_rangeEnd domain first place).bind fun _ => couples_return _

theorem couples_reserved (domain : NumberDomain) :
    Couples coupling (coupling.along Eq) (reserved domain) (reserved domain) := by
  refine (couples_expect _ (by decide)).bind_token fun keyword _ => ?_
  have hentries : Couples coupling (coupling.along Eq) (reservations domain)
      (reservations domain) := by
    intro tape tape' hrel hkept
    refine .bind hkept (fun _ => agrees_check _ hrel) ?_
    rintro first first' _ _ - ⟨htwin, -, -, rfl, rfl⟩ hlater
    obtain ⟨position, rfl⟩ := coupling.twin_eq htwin
    exact couples_ite (couples_separated rfl couples_reservedName)
      (couples_separated rfl (couples_reservedRange domain)) hrel hlater
  exact hentries.bind fun _ => couples_return _

theorem couples_fieldTail : Couples coupling (coupling.along Eq) fieldTail fieldTail := by
  refine (couples_expect _ rfl).bind_token fun name _ => ?_
  refine (couples_expect _ rfl).bind_token fun _ _ => ?_
  refine (couples_expect _ rfl).bind_token fun number _ => ?_
  refine couples_optionList.bind fun options => ?_
  exact (couples_expect _ rfl).bind_token fun _ _ => couples_return _

theorem couples_fieldLabel (labelled : Bool) :
    Couples coupling (coupling.along Eq) (fieldLabel labelled) (fieldLabel labelled) := by
  have hlabel : ∀ token : Token, (labelled && (labelKind? token.lexeme).isSome) = true →
      token.Regular → token.Inner := by
    intro token htoken hregular
    refine hregular.inner_of_isReference ?_
    have hkind := (Bool.and_eq_true _ _ ▸ htoken).2
    simp only [labelKind?, List.lookup_cons, List.lookup_nil] at hkind
    split at hkind
    · rename_i hword
      rw [beq_iff_eq.1 hword]
      decide
    · split at hkind
      · rename_i hword
        rw [beq_iff_eq.1 hword]
        decide
      · cases hkind
  refine (couples_accept? (fun _ _ => rfl) hlabel).bind_option ?_ fun label _ => ?_
  · exact couples_return _
  · exact couples_return _

theorem couples_field (labelled : Bool) :
    Couples coupling (coupling.along Eq) (field labelled) (field labelled) := by
  refine (couples_fieldLabel labelled).bind fun label => ?_
  refine (couples_expect _ rfl).bind_token fun type _ => ?_
  exact couples_fieldTail.bind fun _ => couples_return _

theorem couples_map : Couples coupling (coupling.along Eq) map map := by
  refine (couples_expect _ (by decide)).bind_token fun keyword _ => ?_
  refine (couples_expect _ rfl).bind_token fun _ _ => ?_
  refine (couples_expect _ rfl).bind_token fun key _ => ?_
  refine (couples_expect _ rfl).bind_token fun _ _ => ?_
  refine (couples_expect _ rfl).bind_token fun value _ => ?_
  refine (couples_expect _ rfl).bind_token fun _ _ => ?_
  exact couples_fieldTail.bind fun _ => couples_return _

theorem couples_constant : Couples coupling (coupling.along Eq) constant constant := by
  refine (couples_expect _ rfl).bind_token fun name _ => ?_
  refine (couples_expect _ rfl).bind_token fun _ _ => ?_
  refine Couples.bind_checked rfl (fun hpassed _ => agrees_require hpassed) fun number _ => ?_
  refine couples_optionList.bind fun options => ?_
  exact (couples_expect _ rfl).bind_token fun _ _ => couples_return _

theorem couples_payload (kind : Node.Kind) :
    Couples coupling (coupling.along Eq) (payload kind) (payload kind) := by
  refine (couples_expect _ rfl).bind_token fun _ _ => ?_
  refine couples_streamWord.bind_option ?_ fun stream _ => ?_
  all_goals
    refine (couples_expect _ rfl).bind_token fun type _ => ?_
    refine (couples_expect _ rfl).bind_token fun _ _ => ?_
    exact couples_return _

theorem couples_signature : Couples coupling (coupling.along Eq) signature signature := by
  refine (couples_expect _ (by decide)).bind_token fun keyword _ => ?_
  refine (couples_expect _ rfl).bind_token fun name _ => ?_
  refine (couples_payload _).bind fun input => ?_
  refine (couples_expect _ (by decide)).bind_token fun _ _ => ?_
  exact (couples_payload _).bind fun _ => couples_return _

/-! ### Statements with a body -/

theorem couples_whole {parse : Parse Node} (h : Couples coupling (coupling.along Eq) parse parse) :
    Couples coupling coupling.Begun (whole parse) (whole parse) := by
  refine h.bind fun node => ?_
  intro tape tape' hrel _
  exact .ok (.whole hrel)

/-- The first token of a header is not looked at. -/
theorem agrees_header (kind : Node.Kind) (scope : Scope) (hrel : coupling.rel tape tape')
    (hfirst : ∀ token, tape.peek? = some token → coupling.passes token)
    (hkept : coupling.kept (endTape (header kind scope tape))) :
    Agrees coupling coupling.Begun (header kind scope tape) (header kind scope tape') := by
  have hany : coupling.kept (endTape (anyToken tape)) →
      Agrees coupling coupling.passed (anyToken tape) (anyToken tape') := by
    intro hafter
    unfold anyToken at hafter ⊢
    cases hpeek : tape.peek? with
    | none =>
      rw [peek_of_none hrel hpeek]
      exact .error hrel (coupling.nearest hrel) (.inl rfl)
    | some token =>
      obtain ⟨position, htwin, hpeek'⟩ := peek_of_some hrel hpeek
      rw [hpeek] at hafter
      rw [hpeek']
      have hpasses := hfirst token hpeek
      exact .ok ⟨htwin, coupling.advance hrel hpeek hpasses hafter, hpasses,
        head?_seen_advance hpeek⟩
  refine .bind hkept hany ?_
  rintro keyword keyword' middle middle' - ⟨htwin, hmiddle, -⟩ hkept
  obtain ⟨position, rfl⟩ := coupling.twin_eq htwin
  refine .bind hkept (couples_expect _ rfl hmiddle) ?_
  rintro name name' last last' - ⟨htwin, hlast, -⟩ hkept
  obtain ⟨place, rfl⟩ := coupling.twin_eq htwin
  have hbrace : coupling.kept (endTape (expect (.mark .openBrace) last)) →
      Agrees coupling (fun opener opener' after after' =>
        coupling.twin opener opener' ∧ coupling.opened after after')
        (expect (.mark .openBrace) last) (expect (.mark .openBrace) last') :=
    agrees_expect _ hlast fun hpeek hadmits htwin hafter =>
      ⟨htwin, coupling.opens hlast hpeek hadmits hafter⟩
  refine .bind hkept hbrace ?_
  rintro opener opener' after after' - ⟨htwin, hafter⟩ -
  exact .ok (.opened htwin hafter)

/-- A signature ends with a semicolon, or with a brace that opens a body. -/
theorem couples_method : Couples coupling coupling.Begun method method := by
  refine couples_signature.bind fun node => ?_
  intro tape tape' hrel hkept
  refine .bind hkept (agrees_expect _ hrel fun {token token'} hpeek hadmits htwin hafter =>
    show coupling.Begun
      (if token.isMark .semicolon then .whole node else .opened ⟨.method, token, node⟩)
      (if token'.isMark .semicolon then .whole node else .opened ⟨.method, token', node⟩)
      tape.advance tape'.advance from ?_) ?_
  · obtain ⟨position, rfl⟩ := coupling.twin_eq htwin
    have hsame : Token.isMark { token with position := position } .semicolon =
        token.isMark .semicolon := rfl
    rw [hsame]
    split
    · rename_i hend
      have hpasses := coupling.passes_of_inner hrel hpeek fun hregular =>
        Terminal.inner_of_admits rfl hregular
          (show (Terminal.mark .semicolon).admits token = true from hend)
      exact .whole (coupling.advance hrel hpeek hpasses hafter)
    · rename_i hend
      have hbrace : token.isMark .openBrace = true := by
        simpa [Terminal.admits, hend] using hadmits
      exact .opened htwin (coupling.opens hrel hpeek hbrace hafter)
  · intro mark mark' after after' _ hbegun _
    exact .ok hbegun

/-- **Every statement but a comment is read alike** in readings that are coupled. A block with a name
starts with any token, so that it must be known that this one may be passed. -/
theorem agrees_start (statement : Statement) (hcomment : ∀ mark, statement ≠ .comment mark)
    (hrel : coupling.rel tape tape')
    (hfirst : (Grammar.namedBlock? statement).isSome = true →
      ∀ token, tape.peek? = some token → coupling.passes token)
    (hkept : coupling.kept (endTape (statement.start tape))) :
    Agrees coupling coupling.Begun (statement.start tape) (statement.start tape') := by
  cases statement with
  | version => exact couples_whole couples_version hrel hkept
  | importFile => exact couples_whole couples_importFile hrel hkept
  | package => exact couples_whole couples_package hrel hkept
  | option => exact couples_whole couples_option hrel hkept
  | message => exact agrees_header _ _ hrel (hfirst rfl) hkept
  | oneof => exact agrees_header _ _ hrel (hfirst rfl) hkept
  | enum => exact agrees_header _ _ hrel (hfirst rfl) hkept
  | service => exact agrees_header _ _ hrel (hfirst rfl) hkept
  | method => exact couples_method hrel hkept
  | field labelled => exact couples_whole (couples_field labelled) hrel hkept
  | map => exact couples_whole couples_map hrel hkept
  | constant => exact couples_whole couples_constant hrel hkept
  | reserved domain => exact couples_whole (couples_reserved domain) hrel hkept
  | comment mark => exact absurd rfl (hcomment mark)

end Coupling

end ProtoSchema
