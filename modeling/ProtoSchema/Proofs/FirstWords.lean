import ProtoSchema.Proofs.Accept
import ProtoSchema.Proofs.Lexing
import ProtoSchema.Proofs.Written

/-!
# A statement passes the word that chose it

Members of messages, oneofs and enums are chosen by their first word alone, while reading them also
asks for the kind of the token. The two agree on every word but `inf` and `nan`: these are written
like names, so that they choose a field or a constant, but their tokens are numbers, and the
statement is refused at once.

* `Scope.isTypeName_of_field`, `Scope.isIdentifier_of_constant`: the words that choose a member.
* `Token.Regular.isWord`: the tokens of these words are names.
* `Parse.Passes`: reading passes the next token, whether it succeeds or fails.
* `member_passes_first_word`: all such members, with `inf` and `nan` left out.
-/

namespace ProtoSchema

open Parse

variable {tape : Tape} {token : Token} {lexeme : String} {scope : Scope} {labelled : Bool}

/-! ### Words that choose a member -/

/-- Whether a statement starts with a name: a field with its type, a constant with its own name. -/
def Statement.startsWithName : Statement → Bool
  | field _ | constant => true
  | _ => false

namespace Scope

/-- A word that chooses a field is a label or a type. -/
theorem isTypeName_of_field (h : scope.statement? lexeme = some (.field labelled))
    (hlabel : (labelled && (labelKind? lexeme).isSome) = false) :
    Lexeme.isTypeName lexeme = true := by
  rcases statement?_cases h with ⟨-, heq⟩ | ⟨-, heq⟩ | hopener | ⟨-, himplicit⟩
  · cases heq
  · cases heq
  · -- the only words with a field of their own are the labels
    have hall : ∀ opener ∈ scope.openers, opener.2 = .field labelled →
        (labelled && (labelKind? opener.1).isSome) = true := by
      cases scope <;> cases labelled <;> decide
    rw [hall _ hopener rfl] at hlabel
    cases hlabel
  · rcases implicit?_cases himplicit with ⟨-, -, htype⟩ | ⟨-, -, htype, -⟩ | ⟨-, heq, -⟩
    · exact htype
    · exact htype
    · cases heq

theorem isIdentifier_of_constant (h : scope.statement? lexeme = some .constant) :
    Lexeme.isIdentifier lexeme = true := by
  rcases statement?_cases h with ⟨-, heq⟩ | ⟨-, heq⟩ | hopener | ⟨-, himplicit⟩
  · cases heq
  · cases heq
  · have hall : ∀ opener ∈ scope.openers, opener.2 ≠ .constant := by cases scope <;> decide
    exact absurd rfl (hall _ hopener)
  · rcases implicit?_cases himplicit with ⟨-, heq, -⟩ | ⟨-, heq, -⟩ | ⟨-, -, -, hname⟩
    · cases heq
    · cases heq
    · exact hname

end Scope

/-- **The token of a reference is a name**, unless the reference is read as a number. -/
theorem Token.Regular.isWord (h : token.Regular)
    (hreference : Lexeme.isReference token.lexeme = true)
    (hnumber : isNumberWord token.lexeme = false) : token.isWord = true := by
  rcases h with ⟨-, hlexeme⟩ | hkind
  · rw [hlexeme] at hreference
    cases hreference
  · have htoken : token = .ofLexeme token.position token.lexeme := by
      rw [ofLexeme, ← hkind]
    rw [htoken]
    exact isWord_of_referable ⟨hreference, hnumber⟩

theorem Lexeme.isReference_of_isTypeName (h : isTypeName lexeme = true) :
    isReference lexeme = true :=
  (Bool.and_eq_true_iff.1 h).2

theorem Lexeme.isTypeName_of_isIdentifier (hname : isIdentifier lexeme = true)
    (hkeyword : lexeme ∉ keywords) : isTypeName lexeme = true := by
  simpa [isTypeName, isKeyword, hkeyword] using isReference_of_isPath (isPath_of_isIdentifier hname)

theorem Token.Regular.admits_fieldType (h : token.Regular)
    (htype : Lexeme.isTypeName token.lexeme = true) (hnumber : isNumberWord token.lexeme = false) :
    Terminal.fieldType.admits token = true := by
  rw [Terminal.admits, htype, h.isWord (Lexeme.isReference_of_isTypeName htype) hnumber]
  rfl

theorem Token.Regular.admits_constantName (h : token.Regular)
    (hname : Lexeme.isIdentifier token.lexeme = true)
    (hnumber : isNumberWord token.lexeme = false) :
    Terminal.constantName.admits token = true := by
  have hreference := Lexeme.isReference_of_isPath (Lexeme.isPath_of_isIdentifier hname)
  rw [Terminal.admits, hname, h.isWord hreference hnumber]
  rfl

/-! ### Passing the first word -/

namespace Parse

variable {α β : Type} {parse : Parse α}

/-- Reading passes the next token, whether it succeeds or fails. -/
def Passes (parse : Parse α) (tape : Tape) : Prop :=
  tape.advance.Reaches (endTape (parse tape))

/-- A sequence passes the next token if its first part does and succeeds. -/
theorem passes_bind {next : α → Parse β} [∀ value, Lawful (next value)] {value : α}
    (h : parse tape = .ok value tape.advance) : (parse >>= next).Passes tape := by
  rw [Passes, bind_apply, h]
  exact Lawful.reaches tape.advance

/-- A parse that stops where it started does not pass the next token. -/
theorem not_passes (hpeek : tape.peek? = some token) (h : endTape (parse tape) = tape) :
    ¬ parse.Passes tape := by
  intro hpasses
  rw [Passes, h] at hpasses
  have hshorter := Tape.advance_shorter (Tape.remaining_pos_of_peek? hpeek)
  exact absurd hpasses.remaining_le (Nat.not_le.2 hshorter)

theorem expect_of_admits {terminal : Terminal} (hpeek : tape.peek? = some token)
    (hadmits : terminal.admits token = true) : expect terminal tape = .ok token tape.advance := by
  obtain ⟨rest, hrest⟩ := List.head?_eq_some_iff.1 hpeek
  simp only [expect, check, hrest, hadmits, if_true]

theorem passes_whole {parse : Parse Node} (h : parse.Passes tape) : (whole parse).Passes tape := by
  rw [Passes] at h ⊢
  rw [whole, bind_apply]
  cases hparse : parse tape <;> rw [hparse] at h <;> exact h

theorem accept?_of_peek? {test : Token → Bool} (hpeek : tape.peek? = some token) :
    accept? test tape = if test token then .ok (some token) tape.advance else .ok none tape := by
  cases htest : test token <;> simp [accept?, Tape.takeIf, hpeek, Option.filter_some, htest]

theorem fieldLabel_of_peek? (labelled : Bool) (hpeek : tape.peek? = some token) :
    fieldLabel labelled tape =
      if labelled && (labelKind? token.lexeme).isSome then
        .ok ((labelKind? token.lexeme).map (Node.leaf · token.lexeme)).toList tape.advance
      else .ok [] tape := by
  rw [fieldLabel, bind_apply, accept?_of_peek? hpeek]
  cases labelled with
  | false => rfl
  | true => cases hkind : labelKind? token.lexeme <;> simp [hkind, pure, EStateM.pure]

/-- A field passes its first word: as its label, or else as its type. -/
theorem passes_field (hpeek : tape.peek? = some token)
    (htype : (labelled && (labelKind? token.lexeme).isSome) = false →
      Terminal.fieldType.admits token = true) : (field labelled).Passes tape := by
  have hlabel := fieldLabel_of_peek? labelled hpeek
  rw [field]
  split at hlabel
  · exact passes_bind hlabel
  · rename_i hnone
    rw [Passes, bind_apply, hlabel]
    exact passes_bind (expect_of_admits hpeek (htype (by simpa using hnone)))

end Parse

/-- **A member passes the word that chose it**, unless this is read as a number. -/
theorem Statement.passes_start {statement : Statement} (hregular : token.Regular)
    (hnumber : isNumberWord token.lexeme = false) (hpeek : tape.peek? = some token)
    (hstatement : scope.statement? token.lexeme = some statement)
    (hname : statement.startsWithName = true) : statement.start.Passes tape := by
  cases statement with
  | field labelled =>
    exact passes_whole (passes_field hpeek fun hlabel =>
      hregular.admits_fieldType (scope.isTypeName_of_field hstatement hlabel) hnumber)
  | constant =>
    have hadmits := hregular.admits_constantName (scope.isIdentifier_of_constant hstatement) hnumber
    exact passes_whole (passes_bind (expect_of_admits hpeek hadmits))
  | _ => cases hname

/-! ### Words that may be types and names -/

namespace Grammar

/-- What stands behind the name of a constant. -/
inductive ConstantTail : List Token → List Node → Prop
  | intro {equals number semicolon : Token} {options : List Token} {nodes : List Node}
      (h : Spells [.mark .equals, .enumValue] [equals, number])
      (hnumber : NumberDomain.enumValue.contains number.integerValue = true)
      (hoptions : OptionList options nodes) (hend : Spells [.mark .semicolon] [semicolon]) :
      ConstantTail (equals :: number :: (options ++ [semicolon]))
        (.leaf .fieldNumber number.lexeme :: nodes)

end Grammar

section Names

variable {seen tail rest : List Token} {nodes : List Node} (position : Position)

theorem Token.regular_ofLexeme (position : Position) (lexeme : String) :
    (Token.ofLexeme position lexeme).Regular := .inr rfl

/-- An identifier may be the type of a field, if it is read as a name and starts nothing else. -/
theorem yields_field_of_identifier (hname : Lexeme.isIdentifier lexeme = true)
    (hnumber : isNumberWord lexeme = false) (hkeyword : lexeme ∉ Lexeme.keywords)
    (hbars : lexeme ∉ Grammar.typeBars true) (htail : Grammar.FieldTail tail nodes)
    (hregular : ∀ word ∈ tail, word.Regular) :
    (Statement.field true).start.Yields seen (.ofLexeme position lexeme :: tail)
      (.whole ⟨.field, "", .leaf (typeKind lexeme) lexeme :: nodes⟩) rest := by
  have hfirst := Token.regular_ofLexeme position lexeme
  have htype := hfirst.admits_fieldType (Lexeme.isTypeName_of_isIdentifier hname hkeyword) hnumber
  exact Grammar.yields_of_line (.field (by simpa using htype) hbars htail)
    (List.forall_mem_cons.2 ⟨hfirst, hregular⟩)

/-- An identifier may name a constant, if it is read as a name and starts nothing else. -/
theorem yields_constant_of_identifier (hname : Lexeme.isIdentifier lexeme = true)
    (hnumber : isNumberWord lexeme = false) (hbars : lexeme ∉ "reserved" :: Lexeme.keywords)
    (htail : Grammar.ConstantTail tail nodes) (hregular : ∀ word ∈ tail, word.Regular) :
    Statement.constant.start.Yields seen (.ofLexeme position lexeme :: tail)
      (.whole ⟨.enumConstant, "", .leaf .identifier lexeme :: nodes⟩) rest := by
  have hfirst := Token.regular_ofLexeme position lexeme
  have hadmits := hfirst.admits_constantName hname hnumber
  cases htail with
  | intro h hvalue hoptions hend =>
    exact Grammar.yields_of_line (.constant (by simp_all) hbars hvalue hoptions hend)
      (List.forall_mem_cons.2 ⟨hfirst, hregular⟩)

end Names

/-- **A member passes the word that chose it**, if the word is not read as a number: wherever the
token of such a word stands, in whatever text, reading the member passes it. In particular an
identifier may be the type of a field without a label or the name of a constant, unless it starts
something else. -/
theorem member_passes_first_word (lexeme : String) (hnumber : isNumberWord lexeme = false) :
    (∀ source : String, ∀ token ∈ tokenize source, token.lexeme = lexeme →
      ∀ (scope : Scope) (statement : Statement), scope.statement? lexeme = some statement →
        statement.startsWithName = true →
        ∀ tape : Tape, tape.peek? = some token → statement.start.Passes tape) ∧
    (Lexeme.isIdentifier lexeme = true → lexeme ∉ Lexeme.keywords →
      lexeme ∉ ["reserved", "repeated", "optional"] →
      Scope.message.statement? lexeme = some (.field true) ∧
        ∀ position seen tail rest nodes, Grammar.FieldTail tail nodes →
          (∀ word ∈ tail, word.Regular) →
          (Statement.field true).start.Yields seen (.ofLexeme position lexeme :: tail)
            (.whole ⟨.field, "", .leaf (typeKind lexeme) lexeme :: nodes⟩) rest) ∧
    (Lexeme.isIdentifier lexeme = true → lexeme ∉ "reserved" :: Lexeme.keywords →
      Scope.enum.statement? lexeme = some .constant ∧
        ∀ position seen tail rest nodes, Grammar.ConstantTail tail nodes →
          (∀ word ∈ tail, word.Regular) →
          Statement.constant.start.Yields seen (.ofLexeme position lexeme :: tail)
            (.whole ⟨.enumConstant, "", .leaf .identifier lexeme :: nodes⟩) rest) := by
  refine ⟨?_, ?_, ?_⟩
  · rintro source token htoken rfl scope statement hstatement hname tape hpeek
    exact statement.passes_start (regular_tokenize source token htoken) hnumber hpeek hstatement
      hname
  · intro hname hkeyword hbars
    have htype := Lexeme.isTypeName_of_isIdentifier hname hkeyword
    refine ⟨Scope.statement?_of_type (by decide) htype hbars, ?_⟩
    intro position seen tail rest nodes htail hregular
    exact yields_field_of_identifier position hname hnumber hkeyword hbars htail hregular
  · intro hname hbars
    refine ⟨Scope.statement?_of_constant (by decide) hname hbars, ?_⟩
    intro position seen tail rest nodes htail hregular
    exact yields_constant_of_identifier position hname hnumber hbars htail hregular

/-- A field whose type is a word that starts a statement elsewhere. -/
def serviceField : String := "service a = 1;"

/-- The word `service` may be a type and the word `optional` a name. -/
theorem member_passes_first_word_serviceField :
    (Statement.field true).start.Passes (.ofTokens (tokenize serviceField)) ∧
    (Statement.field true).start.Yields [] (tokenize serviceField)
      (.whole ⟨.field, "", [.leaf .userType "service", .leaf .identifier "a",
        .leaf .fieldNumber "1"]⟩) [] ∧
    Statement.constant.start.Yields [] (tokenize "optional = -1;")
      (.whole ⟨.enumConstant, "", [.leaf .identifier "optional", .leaf .fieldNumber "-1"]⟩) [] := by
  have hfield : tokenize serviceField = .ofLexeme ⟨1, 1⟩ "service" :: [.ofLexeme ⟨1, 9⟩ "a",
      .ofLexeme ⟨1, 11⟩ "=", .ofLexeme ⟨1, 13⟩ "1", .ofLexeme ⟨1, 14⟩ ";"] := by decide +kernel
  have hconstant : tokenize "optional = -1;" = .ofLexeme ⟨1, 1⟩ "optional" ::
      [.ofLexeme ⟨1, 10⟩ "=", .ofLexeme ⟨1, 12⟩ "-1", .ofLexeme ⟨1, 14⟩ ";"] := by decide +kernel
  obtain ⟨hpasses, htypes, -⟩ := member_passes_first_word "service" (by decide)
  obtain ⟨-, -, hnames⟩ := member_passes_first_word "optional" (by decide)
  refine ⟨?_, ?_, ?_⟩
  · exact hpasses serviceField (.ofLexeme ⟨1, 1⟩ "service") (by decide +kernel) rfl .message _
      (by decide +kernel) rfl _ (by decide +kernel)
  · rw [hfield]
    refine (htypes (by decide) (by decide) (by decide)).2 _ _ _ _ _ ?_ ?_
    · refine @Grammar.FieldTail.intro _ _ _ _ [] _ ?_ .absent ?_ <;>
        simp only [Grammar.spells_cons, Grammar.spells_nil] <;> decide
    · simp [Token.regular_ofLexeme]
  · rw [hconstant]
    refine (hnames (by decide) (by decide)).2 _ _ _ _ _ ?_ ?_
    · refine @Grammar.ConstantTail.intro _ _ _ [] _ ?_ (by decide) .absent ?_ <;>
        simp only [Grammar.spells_cons, Grammar.spells_nil] <;> decide
    · simp [Token.regular_ofLexeme]

/-- **Two identifiers are refused as first words.** They are no keywords and no labels, and they
choose a field and a constant, but neither is passed. -/
theorem number_word_refused :
    Lexeme.isIdentifier "inf" = true ∧ Lexeme.isIdentifier "nan" = true ∧
    "inf" ∉ "reserved" :: "repeated" :: "optional" :: Lexeme.keywords ∧
    "nan" ∉ "reserved" :: Lexeme.keywords ∧
    Scope.message.statement? "inf" = some (.field true) ∧
    Scope.enum.statement? "nan" = some .constant ∧
    (Tape.ofTokens (tokenize "inf a = 1;")).peek? = some (.ofLexeme ⟨1, 1⟩ "inf") ∧
    ¬ (Statement.field true).start.Passes (.ofTokens (tokenize "inf a = 1;")) ∧
    (Tape.ofTokens (tokenize "nan = 1;")).peek? = some (.ofLexeme ⟨1, 1⟩ "nan") ∧
    ¬ Statement.constant.start.Passes (.ofTokens (tokenize "nan = 1;")) := by
  have hinf : (Tape.ofTokens (tokenize "inf a = 1;")).peek? = some (.ofLexeme ⟨1, 1⟩ "inf") := by
    decide +kernel
  have hnan : (Tape.ofTokens (tokenize "nan = 1;")).peek? = some (.ofLexeme ⟨1, 1⟩ "nan") := by
    decide +kernel
  refine ⟨by decide, by decide, by decide, by decide, by decide +kernel, by decide +kernel, hinf,
    not_passes hinf (by decide +kernel), hnan, not_passes hnan (by decide +kernel)⟩

end ProtoSchema
