import ProtoSchema.Proofs.Grammar
import ProtoSchema.Proofs.Trees
import ProtoSchema.Proofs.Written

/-!
# Written statements follow the grammar

Each line of a well-formed schema is a statement of the grammar, and its node is the tree of what
the line declares; the first line of a block opens the block. Which words of a line are names and
which are numbers is settled by the vocabulary that the schema is well formed over.

* `Grammar.separated_written`: items with commas between them.
* `Grammar.line_field`, `Grammar.line_reserved`, ...: one statement each.
* `Grammar.opening_named`, `Grammar.opening_method`: blocks up to their braces.
-/

namespace ProtoSchema

namespace Grammar

open Vocabulary

variable {tokens : List Token}

/-! ### Options -/

theorem layout_nil (multiline : Bool) : Layout multiline [] := by
  cases multiline
  · rfl
  · exact fun token htoken => absurd htoken (by simp)

theorem optionName_written {name : String} {words : List String} (h : OptionForm name words)
    (hwritten : Written words tokens) : OptionName tokens name := by
  cases h with
  | path h hpath =>
    obtain ⟨position, rfl⟩ : ∃ position, tokens = [.ofLexeme position name] := by
      simpa using hwritten
    refine .path ?_
    simp [Terminal.admits, Token.isWord_of_referable h, hpath]
  | @extension name h =>
    obtain ⟨first, position, last, rfl⟩ : ∃ first position last, tokens =
        [.ofLexeme first "(", .ofLexeme position name, .ofLexeme last ")"] := by
      simpa using hwritten
    refine .extension ?_
    simp [Terminal.admits, Token.isWord_of_referable h, h.reference, Punctuation.text]
  | @member name path h hpath =>
    obtain ⟨first, position, last, inside, rfl⟩ : ∃ first position last inside, tokens =
        [.ofLexeme first "(", .ofLexeme position name, .ofLexeme last ")",
          .ofLexeme inside path] := by
      simpa using hwritten
    refine .member ?_ hpath
    simp [Terminal.admits, Token.isWord_of_referable h, h.reference, Punctuation.text]

/-- `name = value`, on a line or in a list. -/
theorem assignment_written {multiline : Bool} {setting : Setting}
    (h : setting.WellFormed .printable) (hwritten : Written setting.words tokens) :
    Assignment multiline tokens setting.toNode := by
  obtain ⟨name, rest, rfl, hname, hrest⟩ := written_append.1 hwritten
  obtain ⟨equals, value, rfl⟩ : ∃ equals value, rest =
      [.ofLexeme equals "=", .ofLexeme value (quote setting.value)] := by
    simpa using hrest
  have hvalue : Spells [.optionValue] [.ofLexeme value (quote setting.value)] := by
    simp [Terminal.admits]
  have hequals : Spells [.mark .equals] [.ofLexeme equals "="] := by simp [Punctuation.text]
  have hassignment := Assignment.intro (layout_nil multiline)
    (optionName_written (printable_isOption h.name) hname) (layout_nil multiline) hequals
    (layout_nil multiline) hvalue
  simpa [optionNode, Setting.toNode] using hassignment

/-- Items with commas between them. -/
theorem separated_written {α β : Type} {item : List Token → β → Prop} {close : Punctuation}
    {words : α → List String} {value : α → β} {entries : List α} (hentries : entries ≠ [])
    (h : ∀ entry ∈ entries, ∀ tokens, Written (words entry) tokens → item tokens (value entry))
    (hwritten : Written (listed close (entries.map words)) tokens) :
    Separated item close tokens (entries.map value) := by
  induction entries generalizing tokens with
  | nil => exact absurd rfl hentries
  | cons entry rest ih =>
    rw [List.forall_mem_cons] at h
    cases rest with
    | nil =>
      obtain ⟨first, last, rfl, hfirst, hlast⟩ := written_append.1 hwritten
      obtain ⟨position, rfl⟩ : ∃ position, last = [.ofLexeme position close.text] := by
        simpa using hlast
      exact .last (h.1 first hfirst) (by simp)
    | cons next others =>
      obtain ⟨first, last, rfl, hfirst, hlast⟩ := written_append.1 hwritten
      obtain ⟨position, more, rfl, hmore⟩ := written_cons.1 hlast
      exact .more (h.1 first hfirst) (by simp [Punctuation.text]) (ih (by simp) h.2 hmore)

theorem optionList_written {settings : List Setting}
    (h : ∀ setting ∈ settings, setting.WellFormed .printable)
    (hwritten : Written (Setting.listWords settings) tokens) :
    OptionList tokens (settings.map Setting.toNode) := by
  unfold Setting.listWords at hwritten
  split at hwritten
  · rename_i hempty
    rw [List.isEmpty_iff] at hempty
    rw [written_nil] at hwritten
    rw [hempty, hwritten]
    exact .absent
  · rename_i hsettings
    obtain ⟨position, rest, rfl, hrest⟩ := written_cons.1 hwritten
    refine .listed (by simp [Punctuation.text]) (separated_written ?_ ?_ hrest)
    · simpa using hsettings
    · intro setting hsetting words hwords
      have hbreaks : Breaks [] := fun token htoken => absurd htoken (by simp)
      simpa using ListedOption.intro (assignment_written (h setting hsetting) hwords) hbreaks

/-! ### Statements on a line -/

theorem line_option {setting : Setting} (h : setting.WellFormed .printable)
    (hwritten : Written setting.line tokens) : Line .option tokens setting.toNode := by
  obtain ⟨keyword, rest, rfl, hrest⟩ := written_cons.1 hwritten
  obtain ⟨words, last, rfl, hwords, hlast⟩ := written_append.1 hrest
  obtain ⟨semicolon, rfl⟩ : ∃ semicolon, last = [.ofLexeme semicolon ";"] := by simpa using hlast
  exact .option (by simp) (assignment_written h hwords) (by simp [Punctuation.text])

theorem line_version {version : Version} (hwritten : Written version.line tokens) :
    Line .version tokens version.toNode := by
  obtain ⟨keyword, equals, literal, semicolon, rfl⟩ : ∃ keyword equals literal semicolon, tokens =
      [.ofLexeme keyword "syntax", .ofLexeme equals "=", .ofLexeme literal (quote version.text),
        .ofLexeme semicolon ";"] := by
    simpa [Version.line] using hwritten
  have hversion : (Version.ofText? version.text).isSome = true := by cases version <;> decide
  have hspells : Spells [.word "syntax", .mark .equals, .versionText, .mark .semicolon]
      [.ofLexeme keyword "syntax", .ofLexeme equals "=", .ofLexeme literal (quote version.text),
        .ofLexeme semicolon ";"] := by
    simp [Terminal.admits, Punctuation.text]
  simpa [Version.toNode] using Line.version hspells (by simpa using hversion)

theorem line_package {name : Name} (h : printable.isPackage name.text = true)
    (hwritten : Written (packageLine name) tokens) : Line .package tokens (packageNode name) := by
  obtain ⟨keyword, path, semicolon, rfl⟩ : ∃ keyword path semicolon, tokens =
      [.ofLexeme keyword "package", .ofLexeme path name.text, .ofLexeme semicolon ";"] := by
    simpa [packageLine] using hwritten
  obtain ⟨hpath, hname⟩ := printable_isPackage h
  refine .package ?_
  simp [Terminal.admits, Punctuation.text, Token.isWord_of_referable hname, hpath]

theorem line_import {file : Import} (hwritten : Written file.line tokens) :
    Line .importFile tokens file.toNode := by
  obtain ⟨modifier, path⟩ := file
  cases modifier with
  | none =>
    obtain ⟨keyword, literal, semicolon, rfl⟩ : ∃ keyword literal semicolon, tokens =
        [.ofLexeme keyword "import", .ofLexeme literal (quote path), .ofLexeme semicolon ";"] := by
      simpa [Import.line] using hwritten
    have hspells : Spells [.word "import", .importPath, .mark .semicolon]
        [.ofLexeme keyword "import", .ofLexeme literal (quote path), .ofLexeme semicolon ";"] := by
      simp [Terminal.admits, Punctuation.text]
    simpa [Import.toNode] using Line.plainImport hspells
  | some modifier =>
    obtain ⟨keyword, word, literal, semicolon, rfl⟩ : ∃ keyword word literal semicolon, tokens =
        [.ofLexeme keyword "import", .ofLexeme word modifier.text, .ofLexeme literal (quote path),
          .ofLexeme semicolon ";"] := by
      simpa [Import.line] using hwritten
    have hmodifier : (ImportModifier.ofText? modifier.text).isSome = true := by
      cases modifier <;> decide
    have hkeyword : Spells [.word "import"] [.ofLexeme keyword "import"] := by simp
    have hpath : Spells [.importPath, .mark .semicolon]
        [.ofLexeme literal (quote path), .ofLexeme semicolon ";"] := by
      simp [Terminal.admits, Punctuation.text]
    have hword :
        (ImportModifier.ofText? (Token.ofLexeme word modifier.text).lexeme).isSome = true :=
      hmodifier
    simpa [Import.toNode] using Line.qualifiedImport hkeyword hword hpath

/-- `name = number`, options and a semicolon. -/
theorem fieldTail_written {name : String} {number : Nat} {settings : List Setting}
    (hname : printable.isName name = true)
    (hnumber : NumberDomain.fieldNumber.contains number = true)
    (hsettings : ∀ setting ∈ settings, setting.WellFormed .printable)
    (hwritten : Written (numberedWords name (toString number) settings) tokens) :
    FieldTail tokens (.leaf .identifier name :: .leaf .fieldNumber (toString number) ::
      settings.map Setting.toNode) := by
  simp only [numberedWords, written_cons, written_append, written_nil] at hwritten
  obtain ⟨first, _, rfl, equals, _, rfl, second, _, rfl, options, _, rfl, hoptions, semicolon, _,
    rfl, rfl⟩ := hwritten
  obtain ⟨hidentifier, hword⟩ := printable_isName hname
  have hvalue := NumberDomain.integer?_toString_nat hnumber
  have hspells : Spells [.fieldName, .mark .equals, .fieldNumber]
      [.ofLexeme first name, .ofLexeme equals "=", .ofLexeme second (toString number)] := by
    simp only [spells_cons, spells_nil, Terminal.admits, Token.lexeme_ofLexeme, hvalue,
      Token.isWord_of_referable hword, hidentifier]
    simp [Punctuation.text, hnumber]
  exact .intro hspells (optionList_written hsettings hoptions) (by simp [Punctuation.text])

section Field

variable {field : Field}

theorem spells_fieldType {type : FieldType} (h : type.WellFormed .printable) (position : Position) :
    Spells [.fieldType] [.ofLexeme position type.text] := by
  obtain ⟨hname, hword, -⟩ := FieldType.referable_text h
  simp [Terminal.admits, Token.isWord_of_referable hword, hname]

/-- A field without a label. -/
theorem line_unlabelled {labelled : Bool} (h : field.WellFormed .printable)
    (hlabels : field.labels = []) (hwritten : Written field.line tokens) :
    Line (.field labelled) tokens field.toNode := by
  rw [Field.line, hlabels, List.nil_append] at hwritten
  obtain ⟨position, tail, rfl, htail⟩ := written_cons.1 hwritten
  have hbars : field.type.text ∉ typeBars labelled := by
    have hall := (FieldType.referable_text h.type).2.2
    cases labelled
    · exact fun hmem => hall (List.mem_cons_of_mem _ hmem)
    · exact hall
  have hnodes : field.labelNodes = [] := by
    unfold Field.labels at hlabels
    unfold Field.labelNodes
    cases hrepeated : field.repeated <;> cases hoptional : field.optional <;>
      simp [hrepeated, hoptional] at hlabels ⊢
  rw [Field.toNode, hnodes]
  exact .field (spells_fieldType h.type position) hbars
    (fieldTail_written h.name h.number h.settings htail)

/-- A field with a label. -/
theorem line_labelled {label : String} {kind : Node.Kind} (h : field.WellFormed .printable)
    (hlabel : Parse.labelKind? label = some kind) (hlabels : field.labels = [label])
    (hnodes : field.labelNodes = [.leaf kind label]) (hwritten : Written field.line tokens) :
    Line (.field true) tokens field.toNode := by
  rw [Field.line, hlabels] at hwritten
  obtain ⟨first, rest, rfl, hrest⟩ := written_cons.1 hwritten
  obtain ⟨position, tail, rfl, htail⟩ := written_cons.1 hrest
  have hfirst : Parse.labelKind? (Token.ofLexeme first label).lexeme = some kind := hlabel
  rw [Field.toNode, hnodes]
  exact .labelledField hfirst (spells_fieldType h.type position)
    (fieldTail_written h.name h.number h.settings htail)

theorem line_field (h : field.WellFormed .printable) (hwritten : Written field.line tokens) :
    Line (.field true) tokens field.toNode := by
  have hlabels := h.labels
  cases hrepeated : field.repeated <;> cases hoptional : field.optional
  · refine line_unlabelled h ?_ hwritten
    simp [Field.labels, hrepeated, hoptional]
  · have hkind : Parse.labelKind? "optional" = some .optional := rfl
    refine line_labelled h hkind ?_ ?_ hwritten <;>
      simp [Field.labels, Field.labelNodes, hrepeated, hoptional]
  · have hkind : Parse.labelKind? "repeated" = some .repeated := rfl
    refine line_labelled h hkind ?_ ?_ hwritten <;>
      simp [Field.labels, Field.labelNodes, hrepeated, hoptional]
  · exact absurd ⟨hrepeated, hoptional⟩ hlabels

end Field

theorem line_map {map : MapField} (h : map.WellFormed .printable)
    (hwritten : Written map.line tokens) : Line .map tokens map.toNode := by
  simp only [MapField.line, written_cons] at hwritten
  obtain ⟨keyword, _, rfl, opener, _, rfl, key, _, rfl, comma, _, rfl, value, _, rfl, closer, tail,
    rfl, htail⟩ := hwritten
  obtain ⟨hname, hword, -⟩ := FieldType.referable_text h.value
  have hkey : (Scalar.mapKeyOfText? map.key.text).isSome = true := by
    rw [Scalar.mapKeyOfText?, Scalar.ofText?_text, Option.filter_some, if_pos h.key]
    rfl
  refine .map ?_ (fieldTail_written h.name h.number h.settings htail)
  simp [Terminal.admits, Punctuation.text, hkey, Token.isWord_of_referable hword, hname]

theorem line_constant {value : EnumValue} (h : value.WellFormed .printable)
    (hwritten : Written value.line tokens) : Line .constant tokens value.toNode := by
  simp only [EnumValue.line, numberedWords, written_cons, written_append, written_nil] at hwritten
  obtain ⟨first, _, rfl, equals, _, rfl, second, _, rfl, options, _, rfl, hoptions, semicolon, _,
    rfl, rfl⟩ := hwritten
  obtain ⟨hidentifier, hword, hbars⟩ := printable_isConstant h.name
  have hvalue := NumberDomain.integer?_toString h.number
  have hspells : Spells [.constantName, .mark .equals, .enumValue] [.ofLexeme first value.name.text,
      .ofLexeme equals "=", .ofLexeme second (toString value.number)] := by
    simp only [spells_cons, spells_nil, Terminal.admits, Token.lexeme_ofLexeme, hvalue,
      Token.isWord_of_referable hword, hidentifier]
    simp [Punctuation.text]
  have hnumber : (Token.ofLexeme second (toString value.number)).integerValue = value.number := by
    rw [Token.integerValue, Token.lexeme_ofLexeme, hvalue, Option.getD_some]
  exact .constant hspells hbars (by rw [hnumber]; exact h.number)
    (optionList_written h.settings hoptions) (by simp [Punctuation.text])

/-! ### Reserved statements -/

theorem reservedName_written {name : String} (hwritten : Written [quote name] tokens) :
    ReservedName tokens (.leaf .stringLiteral name) := by
  obtain ⟨position, rfl⟩ : ∃ position, tokens = [.ofLexeme position (quote name)] := by
    simpa using hwritten
  have hspells : Spells [.reservedName] [.ofLexeme position (quote name)] := by
    simp [Terminal.admits]
  simpa using ReservedName.intro hspells

theorem admits_number {domain : NumberDomain} {number : Int} (h : domain.contains number = true)
    (position : Position) :
    Terminal.reservedNumber.admits (.ofLexeme position (toString number)) = true ∧
      (Token.ofLexeme position (toString number)).integerValue = number := by
  have hvalue := NumberDomain.integer?_toString h
  constructor
  · rw [Terminal.admits, Token.lexeme_ofLexeme, hvalue]
    rfl
  · rw [Token.integerValue, Token.lexeme_ofLexeme, hvalue, Option.getD_some]

theorem reservedRange_written {domain : NumberDomain} {range : ProtoSchema.ReservedRange}
    (h : range.WellFormed domain) (hwritten : Written range.words tokens) :
    ReservedRange domain tokens range.toNode := by
  obtain ⟨start, stop⟩ := range
  have hstart := admits_number h.start
  have hcontains : ∀ position,
      domain.contains (Token.ofLexeme position (toString start)).integerValue = true := by
    intro position
    rw [(hstart position).2]
    exact h.start
  cases stop with
  | max =>
    simp only [ReservedRange.words, written_cons, written_nil] at hwritten
    obtain ⟨first, _, rfl, word, _, rfl, last, _, rfl, rfl⟩ := hwritten
    refine .toMax ?_ (hcontains first)
    simp only [spells_cons, hstart, spells_nil, admits_word, Token.lexeme_ofLexeme, and_self]
  | number stop =>
    have hstop := admits_number h.stop.1
    by_cases hsingle : stop = start
    · simp only [ReservedRange.words, hsingle, if_true, written_cons, written_nil] at hwritten
      obtain ⟨first, _, rfl, rfl⟩ := hwritten
      simp only [ReservedRange.toNode, hsingle, if_true]
      refine .single ?_ (hcontains first)
      simp only [spells_cons, hstart, spells_nil, and_self]
    · simp only [ReservedRange.words, hsingle, if_false, written_cons, written_nil] at hwritten
      obtain ⟨first, _, rfl, word, _, rfl, last, _, rfl, rfl⟩ := hwritten
      simp only [ReservedRange.toNode, hsingle, if_false]
      refine .between ?_ (hcontains first) ?_ ?_
      · simp only [spells_cons, hstart, hstop, spells_nil, admits_word, Token.lexeme_ofLexeme,
          and_self]
      · rw [(hstop last).2]
        exact h.stop.1
      · rw [(hstart first).2, (hstop last).2]
        exact h.stop.2

theorem exists_listed_ranges (close : Punctuation) (range : ProtoSchema.ReservedRange)
    (others : List ProtoSchema.ReservedRange) :
    ∃ words, listed close ((range :: others).map ReservedRange.words) =
      toString range.start :: words := by
  obtain ⟨rest, hrest⟩ : ∃ rest, range.words = toString range.start :: rest := by
    unfold ReservedRange.words
    split
    · exact ⟨_, rfl⟩
    · split <;> exact ⟨_, rfl⟩
  cases others with
  | nil => exact ⟨_, by rw [List.map_cons, List.map_nil, listed, hrest, List.cons_append]⟩
  | cons next others =>
    exact ⟨_, by rw [List.map_cons, List.map_cons, listed, hrest, List.cons_append]⟩

theorem line_reserved {domain : NumberDomain} {reserved : Reserved} (h : reserved.WellFormed domain)
    (hwritten : Written reserved.line tokens) :
    Line (.reserved domain) tokens reserved.toNode := by
  cases reserved with
  | names entries =>
    obtain ⟨keyword, rest, rfl, hrest⟩ := written_cons.1 hwritten
    refine .reservedNames (by simp) (separated_written h ?_ hrest)
    intro name _ words hwords
    exact reservedName_written hwords
  | ranges entries =>
    obtain ⟨keyword, rest, rfl, hrest⟩ := written_cons.1 hwritten
    have hseparated : Separated (ReservedRange domain) .semicolon rest
        (entries.map ReservedRange.toNode) :=
      separated_written h.1 (fun range hrange _ => reservedRange_written (h.2 range hrange)) hrest
    -- the first word tells ranges from names, so its token is looked at on its own
    obtain ⟨range, others, rfl⟩ := List.exists_cons_of_ne_nil h.1
    obtain ⟨words, hwords⟩ := exists_listed_ranges .semicolon range others
    rw [hwords] at hrest
    obtain ⟨position, more, rfl, -⟩ := written_cons.1 hrest
    exact .reservedRanges (by simp)
      (Token.isNumber_of_isNumber (Lexeme.isNumber_toString range.start)) hseparated

/-! ### Methods and blocks -/

theorem payload_written {kind : Node.Kind} {payload : ProtoSchema.Payload}
    (h : printable.isMessageType payload.name.text = true)
    (hwritten : Written payload.words tokens) : Payload kind tokens (payload.toNode kind) := by
  have hname := printable_isMessageType h
  have hword : ∀ position, (Token.ofLexeme position payload.name.text).isWord = true :=
    fun position => Token.isWord_of_referable hname
  unfold ProtoSchema.Payload.words at hwritten
  unfold ProtoSchema.Payload.toNode
  cases hstreaming : payload.streaming with
  | false =>
    obtain ⟨opener, type, closer, rfl⟩ : ∃ opener type closer, tokens =
        [.ofLexeme opener "(", .ofLexeme type payload.name.text, .ofLexeme closer ")"] := by
      simpa [hstreaming] using hwritten
    refine .single ?_
    simp [Terminal.admits, Punctuation.text, hword, hname.reference]
  | true =>
    obtain ⟨opener, word, type, closer, rfl⟩ : ∃ opener word type closer, tokens =
        [.ofLexeme opener "(", .ofLexeme word "stream", .ofLexeme type payload.name.text,
          .ofLexeme closer ")"] := by
      simpa [hstreaming] using hwritten
    refine .stream ?_
    simp [Terminal.admits, Punctuation.text, hword, hname.reference]

theorem signature_written {method : Method} (h : method.WellFormed .printable)
    (hwritten : Written method.signature tokens) : Signature tokens method.signatureNode := by
  simp only [Method.signature, written_cons, written_append] at hwritten
  obtain ⟨keyword, _, rfl, name, _, rfl, input, _, rfl, hinput, returns, output, rfl, houtput⟩ :=
    hwritten
  obtain ⟨hidentifier, hword⟩ := printable_isName h.name
  have hspells : Spells [.word "rpc", .methodName]
      [.ofLexeme keyword "rpc", .ofLexeme name method.name.text] := by
    simp [Terminal.admits, Token.isWord_of_referable hword, hidentifier]
  exact .intro hspells (payload_written h.input hinput) (by simp) (payload_written h.output houtput)

theorem line_method {method : Method} (h : method.WellFormed .printable)
    (hwritten : Written (method.signature ++ [";"]) tokens) :
    Line .method tokens method.signatureNode := by
  obtain ⟨words, last, rfl, hwords, hlast⟩ := written_append.1 hwritten
  obtain ⟨semicolon, rfl⟩ : ∃ semicolon, last = [.ofLexeme semicolon ";"] := by simpa using hlast
  exact .method (signature_written h hwords) (by simp [Punctuation.text])

/-- A method up to the brace of its body. -/
theorem opening_method {method : Method} (h : method.WellFormed .printable)
    (hwritten : Written (method.signature ++ ["\x7b"]) tokens) :
    ∃ opener, Opening .method tokens ⟨.method, opener, method.signatureNode⟩ := by
  obtain ⟨words, last, rfl, hwords, hlast⟩ := written_append.1 hwritten
  obtain ⟨position, rfl⟩ : ∃ position, last = [.ofLexeme position "\x7b"] := by simpa using hlast
  exact ⟨_, .method (signature_written h hwords) (by simp [Punctuation.text])⟩

/-- A block with a name up to the brace of its body. -/
theorem opening_named {statement : Statement} {word : String} {kind : Node.Kind} {scope : Scope}
    {name : Name} (hblock : namedBlock? statement = some (word, kind, scope))
    (hname : printable.isName name.text = true)
    (hwritten : Written ([word, name.text] ++ ["\x7b"]) tokens) :
    ∃ opener, Opening statement tokens ⟨scope, opener, blockNode kind word name⟩ := by
  obtain ⟨first, second, last, rfl⟩ : ∃ first second last, tokens =
      [.ofLexeme first word, .ofLexeme second name.text, .ofLexeme last "\x7b"] := by
    simpa using hwritten
  obtain ⟨hidentifier, hword⟩ := printable_isName hname
  have hspells : Spells [.word word, .blockName word, .mark .openBrace]
      [.ofLexeme first word, .ofLexeme second name.text, .ofLexeme last "\x7b"] := by
    simp [Terminal.admits, Punctuation.text, Token.isWord_of_referable hword, hidentifier]
  exact ⟨_, .named hblock hspells⟩

end Grammar

end ProtoSchema
