import ProtoSchema.Proofs.Dispatch
import ProtoSchema.Proofs.Yields

/-!
# What is derived is read

The other direction: the tokens of a statement of the grammar are read whole, and reading gives the
node that the grammar assigns to them. Reading looks one or two tokens ahead where the grammar has
a choice, so each lemma says why the tokens ahead leave one alternative only. Here the tokens must
be regular: a line break is not written like a word, and a quoted literal is no number.

* `Grammar.yields_of_separated`: a row of items.
* `Grammar.yields_of_line`, `Grammar.yields_of_opening`, `Grammar.yields_of_lineComment`: the
  statements.
-/

namespace ProtoSchema

theorem Punctuation.text_injective {first second : Punctuation} (h : first.text = second.text) :
    first = second := by
  cases first <;> cases second <;> first | rfl | exact absurd h (by decide)

theorem Token.isMark_eq_false {token : Token} {sign other : Punctuation}
    (h : token.isMark sign = true) (hne : sign ≠ other) : token.isMark other = false := by
  rw [isMark, beq_iff_eq] at h
  rw [isMark, beq_eq_false_iff_ne, h]
  exact fun htext => hne (Punctuation.text_injective htext)

/-- A reference is no mark. -/
theorem Token.isMark_of_isReference {token : Token} (h : Lexeme.isReference token.lexeme = true)
    (sign : Punctuation) : token.isMark sign = false := by
  rw [isMark, beq_eq_false_iff_ne]
  intro hlexeme
  rw [hlexeme] at h
  cases sign <;> exact absurd h (by decide)

/-- A quoted literal is no modifier of an import. -/
theorem ImportModifier.ofText?_of_isQuoted {text : String} (h : Lexeme.isQuoted text = true) :
    ofText? text = none := by
  rw [ofText?, List.find?_eq_none]
  rintro modifier - htext
  rw [← beq_iff_eq.1 htext] at h
  cases modifier <;> exact absurd h (by decide)

/-- A quoted literal is no integer. -/
theorem Lexeme.integer?_of_isQuoted {lexeme : String} (h : isQuoted lexeme = true) :
    integer? lexeme = none := by
  obtain ⟨quote, rest, hlexeme, hquote⟩ := exists_quote_of_isQuoted h
  simp only [isQuote, Bool.or_eq_true, beq_iff_eq] at hquote
  have hdigits : ∀ c, c = '"' ∨ c = '\'' → isDigits (c :: rest) = false := by
    rintro c (rfl | rfl) <;> simp [isDigits]
  rcases hquote with rfl | rfl <;> simp [integer?, hlexeme, magnitude?, hdigits]

namespace Token

variable {token : Token}

/-- A regular token of the kind of numbers is written as a number. -/
theorem Regular.isNumber_lexeme (h : token.Regular) (hnumber : token.isNumber = true) :
    Lexeme.isNumber token.lexeme = true := by
  rw [isNumber, beq_iff_eq] at hnumber
  rcases h with ⟨hend, -⟩ | hkind
  · rw [hend] at hnumber
    cases hnumber
  · rw [hkind, TokenKind.ofLexeme] at hnumber
    split at hnumber
    · cases hnumber
    · split at hnumber
      · assumption
      · split at hnumber <;> cases hnumber

theorem Regular.isNumber_of_isQuoted (h : token.Regular) (hquoted : token.isQuoted = true) :
    token.isNumber = false := by
  rw [← Bool.not_eq_true]
  intro hnumber
  have hlexeme := Lexeme.isNumber_of_isQuoted hquoted
  rw [h.isNumber_lexeme hnumber] at hlexeme
  cases hlexeme

end Token

namespace Grammar

open Parse

variable {α : Type} {seen words rest : List Token} {node : Node}

theorem yields_of_version (h : Line .version words node) :
    Parse.version.Yields seen words node rest := by
  cases h with
  | version h hversion =>
    simp only [spells_cons, spells_nil, and_true] at h
    simp only [Parse.version, yields_expect_bind, yields_require_bind, yields_pure]
    exact ⟨_, _, rfl, h.1, _, _, rfl, h.2.1, _, _, rfl, h.2.2.1, hversion, _, _, rfl, h.2.2.2, rfl,
      rfl⟩

theorem yields_of_importFile (h : Line .importFile words node) :
    Parse.importFile.Yields seen words node rest := by
  simp only [Parse.importFile, yields_expect_bind, yields_accept?_bind, yields_pure]
  cases h with
  | plainImport h =>
    simp only [spells_cons, spells_nil, and_true] at h
    -- a quoted path is no modifier
    have hplain := ImportModifier.ofText?_of_isQuoted h.2.1
    exact ⟨_, _, rfl, h.1, .inr ⟨by simpa using hplain, _, _, rfl, h.2.1, _, _, rfl, h.2.2, rfl,
      rfl⟩⟩
  | qualifiedImport h hmodifier hpath =>
    simp only [spells_cons, spells_nil, and_true] at h hpath
    exact ⟨_, _, rfl, h, .inl ⟨_, _, rfl, hmodifier, _, _, rfl, hpath.1, _, _, rfl, hpath.2, rfl,
      rfl⟩⟩

theorem yields_of_package (h : Line .package words node) :
    Parse.package.Yields seen words node rest := by
  cases h with
  | package h =>
    simp only [spells_cons, spells_nil, and_true] at h
    simp only [Parse.package, yields_expect_bind, yields_pure]
    exact ⟨_, _, rfl, h.1, _, _, rfl, h.2.1, _, _, rfl, h.2.2, rfl, rfl⟩

/-- The name of an option ends where no path inside an extension goes on. -/
theorem yields_of_optionName {text : String} (h : OptionName words text)
    (hnext : Next (Lexeme.isMemberPath ·.lexeme = false) rest) :
    Parse.optionName.Yields seen words text rest := by
  simp only [Parse.optionName, yields_accept?_bind, Option.isSome_some, Option.isSome_none,
    if_true, Bool.false_eq_true, if_false, extensionName, yields_expect_bind, yields_pure]
  cases h with
  | path h =>
    simp only [spells_cons, spells_nil, and_true] at h
    have hpath := Lexeme.isReference_of_isPath (Bool.and_eq_true_iff.1 h).2
    exact .inr ⟨by simpa using Token.isMark_of_isReference hpath _, _, _, rfl, h, rfl, rfl⟩
  | extension h =>
    simp only [spells_cons, spells_nil, and_true] at h
    exact .inl ⟨_, _, rfl, h.1, _, _, rfl, h.2.1, _, _, rfl, h.2.2, .inr ⟨hnext, rfl, by simp⟩⟩
  | member h hpath =>
    simp only [spells_cons, spells_nil, and_true] at h
    exact .inl ⟨_, _, rfl, h.1, _, _, rfl, h.2.1, _, _, rfl, h.2.2,
      .inl ⟨_, _, rfl, hpath, rfl, rfl⟩⟩

theorem yields_of_layout {multiline : Bool} (h : Layout multiline words)
    (hnext : Next (·.isLineEnd = false) rest) : (layout multiline).Yields seen words () rest := by
  cases multiline with
  | true => exact yields_skipBreaks.2 ⟨h, hnext⟩
  | false => exact yields_pure.2 ⟨h, rfl⟩

/-- What follows line breaks is looked at only where there are none. -/
theorem next_of_breaks {test : Token → Prop} (hwords : ∀ token ∈ words, test token)
    (hrest : Next test rest) : Next test (words ++ rest) := by
  cases words with
  | nil => exact hrest
  | cons first others =>
    rw [List.cons_append, next_cons]
    exact hwords first List.mem_cons_self

theorem Layout.breaks {multiline : Bool} (h : Layout multiline words) : Breaks words := by
  cases multiline with
  | true => exact h
  | false =>
    rw [show words = [] from h]
    intro token htoken
    cases htoken

/-- A regular line break goes on no path. -/
theorem isMemberPath_of_breaks (h : Breaks words) (hregular : ∀ token ∈ words, token.Regular) :
    ∀ token ∈ words, Lexeme.isMemberPath token.lexeme = false := by
  intro token htoken
  rw [(hregular token htoken).lexeme_of_isLineEnd (h token htoken)]
  decide

theorem OptionName.next {text : String} (h : OptionName words text)
    (hregular : ∀ token ∈ words, token.Regular) :
    Next (·.isLineEnd = false) (words ++ rest) := by
  cases h with
  | path h =>
    simp only [spells_cons, spells_nil, and_true] at h
    simpa using (hregular _ (by simp)).isLineEnd_of_admits h (by decide)
  | extension h | member h _ =>
    simp only [spells_cons, spells_nil, and_true] at h
    simpa using (hregular _ (by simp)).isLineEnd_of_admits h.1 (by decide)

theorem yields_of_assignment {multiline : Bool} (h : Assignment multiline words node)
    (hregular : ∀ token ∈ words, token.Regular) :
    (assignment multiline).Yields seen words node rest := by
  cases h with
  | intro hbefore hname hbetween hequals hafter hvalue =>
    rename_i before name between after equals value text
    simp only [List.forall_mem_append, List.forall_mem_cons] at hregular
    obtain ⟨-, hnames, hbetweens, hregularEquals, -, hregularValue, -⟩ := hregular
    simp only [spells_cons, spells_nil, and_true] at hequals hvalue
    have hequalsEnd := hregularEquals.isLineEnd_of_admits hequals (by decide)
    have hvalueEnd := hregularValue.isLineEnd_of_admits hvalue (by decide)
    have hpath : Lexeme.isMemberPath equals.lexeme = false := by
      rw [show equals.lexeme = "=" from beq_iff_eq.1 hequals]
      decide
    -- a line break goes on no name, and neither `=` nor a value is one
    simp only [assignment, yields_bind]
    refine ⟨before, (), _, rfl, yields_of_layout hbefore ?_, name, text, _, rfl,
      yields_of_optionName hname ?_, between, (), _, rfl, yields_of_layout hbetween ?_,
      [equals], equals, _, rfl, yields_expect.2 ⟨rfl, hequals⟩, after, (), _, rfl,
      yields_of_layout hafter ?_, [value], _, [], rfl, ?_, yields_pure.2 ⟨rfl, rfl⟩⟩
    · simpa using hname.next hnames
    · simpa using next_of_breaks (isMemberPath_of_breaks hbetween.breaks hbetweens)
        (by simpa using hpath)
    · simpa using hequalsEnd
    · simpa using hvalueEnd
    · simp only [optionValue, yields_expect_bind, yields_pure]
      exact ⟨value, [], rfl, hvalue, rfl, rfl⟩

theorem yields_of_option (h : Line .option words node)
    (hregular : ∀ token ∈ words, token.Regular) : Parse.option.Yields seen words node rest := by
  cases h with
  | option hkeyword h hend =>
    simp only [spells_cons, spells_nil, and_true] at hkeyword hend
    simp only [List.forall_mem_cons, List.forall_mem_append] at hregular
    simp only [Parse.option, yields_expect_bind]
    refine ⟨_, _, rfl, hkeyword, yields_bind.2 ⟨_, _, _, rfl,
      yields_of_assignment h hregular.2.1, ?_⟩⟩
    simp only [yields_expect_bind, yields_pure]
    exact ⟨_, _, rfl, hend, rfl, trivial⟩

theorem yields_of_listedOption (h : ListedOption words node)
    (hregular : ∀ token ∈ words, token.Regular) (hnext : Next (·.isLineEnd = false) rest) :
    listedOption.Yields seen words node rest := by
  cases h with
  | intro h hafter =>
    rw [List.forall_mem_append] at hregular
    refine yields_bind.2 ⟨_, _, _, rfl, yields_of_assignment h hregular.1, ?_⟩
    simp only [yields_skipBreaks_bind, yields_pure]
    exact ⟨_, [], (List.append_nil _).symm, hafter, hnext, rfl, trivial⟩

/-- **A row of items is read**, if each item is read in front of a comma or the closing mark. -/
theorem yields_of_separated {item : Parse α} [Lawful item] {production : List Token → α → Prop}
    {close : Punctuation} {values : List α} (hclose : close ≠ .comma)
    (hitem : ∀ {seen words value mark rest}, production words value →
      (∀ token ∈ words, token.Regular) → mark.Regular →
      (Terminal.eitherMark .comma close).admits mark = true →
      item.Yields seen words value (mark :: rest))
    (h : Separated production close words values) (hregular : ∀ token ∈ words, token.Regular) :
    (separated item close).Yields seen words values rest := by
  induction h generalizing seen with
  | @last _ _ mark h hmark =>
    simp only [spells_cons, spells_nil, and_true, admits_mark] at hmark
    simp only [List.forall_mem_append, List.forall_mem_cons] at hregular
    have hadmits : (Terminal.eitherMark .comma close).admits mark = true := by
      rw [admits_eitherMark, hmark, Bool.or_true]
    refine yields_separated.2
      ⟨_, _, _, [], rfl, hitem h hregular.1 hregular.2.1 hadmits, hadmits, ?_⟩
    rw [if_pos hmark]
    exact ⟨rfl, rfl⟩
  | @more _ _ _ _ comma h hcomma hrest ih =>
    simp only [spells_cons, spells_nil, and_true, admits_mark] at hcomma
    simp only [List.forall_mem_append, List.forall_mem_cons] at hregular
    have hadmits : (Terminal.eitherMark .comma close).admits comma = true := by
      rw [admits_eitherMark, hcomma, Bool.true_or]
    refine yields_separated.2
      ⟨_, _, _, _, rfl, hitem h hregular.1 hregular.2.1 hadmits, hadmits, ?_⟩
    rw [if_neg (by simp [Token.isMark_eq_false hcomma hclose.symm])]
    exact ⟨_, rfl, ih hregular.2.2⟩

/-- Options end before a semicolon. -/
theorem yields_of_optionList {nodes : List Node} (h : OptionList words nodes)
    (hregular : ∀ token ∈ words, token.Regular)
    (hnext : Next (·.isMark .semicolon = true) rest) :
    optionList.Yields seen words nodes rest := by
  simp only [optionList, yields_accept?_bind, Option.isSome_some, Option.isSome_none,
    if_true, Bool.false_eq_true, if_false, yields_pure]
  cases h with
  | absent =>
    refine .inr ⟨?_, rfl, rfl⟩
    intro token htoken
    exact Token.isMark_eq_false (hnext token htoken) (by decide)
  | listed hopener h =>
    simp only [spells_cons, spells_nil, and_true, admits_mark] at hopener
    rw [List.forall_mem_cons] at hregular
    refine .inl ⟨_, _, rfl, hopener, yields_of_separated (by decide) ?_ h hregular.2⟩
    intro seen words node mark rest hlisted hwords hmark hadmits
    refine yields_of_listedOption hlisted hwords ?_
    rw [next_cons]
    exact hmark.isLineEnd_of_admits hadmits (by decide)

theorem yields_of_reservedName (h : ReservedName words node)
    (hregular : ∀ token ∈ words, token.Regular) : reservedName.Yields seen words node rest := by
  cases h with
  | intro h =>
    simp only [spells_cons, spells_nil, and_true] at h
    simp only [reservedName, yields_refuseMixed_bind, yields_expect_bind, yields_pure]
    refine ⟨?_, _, _, rfl, h, rfl, rfl⟩
    simpa using (hregular _ (by simp)).isNumber_of_isQuoted h

/-- The end of a range after its start. -/
theorem yields_rangeEnd {domain : NumberDomain} {first word stop : Token}
    (hword : word.lexeme = "to") (hstop : Terminal.rangeEnd.admits stop = true)
    (hvalue : (Lexeme.integer? stop.lexeme).isSome = true →
      domain.contains stop.integerValue = true ∧ first.integerValue ≤ stop.integerValue) :
    (do
      let ends ← rangeEnd domain first
      pure (⟨.range, first.lexeme, ends⟩ : Node)).Yields seen [word, stop]
        ⟨.range, first.lexeme, [.leaf .rangeEnd stop.lexeme]⟩ rest := by
  refine yields_bind.2 ⟨[word, stop], [.leaf .rangeEnd stop.lexeme], [], rfl, ?_,
    yields_pure.2 ⟨rfl, rfl⟩⟩
  simp only [rangeEnd, yields_accept?_bind, Option.isSome_some, if_true, yields_expect_bind]
  refine .inl ⟨word, [stop], rfl, by simpa using hword, stop, [], rfl, hstop,
    yields_bind.2 ⟨[], (), [], rfl, ?_, yields_pure.2 ⟨rfl, rfl⟩⟩⟩
  exact yields_requireRangeEnd.2 ⟨rfl, hvalue⟩

/-- A number or a range ends before a comma or a semicolon. -/
theorem yields_of_reservedRange {domain : NumberDomain} {mark : Token}
    (h : ReservedRange domain words node)
    (hmark : (Terminal.eitherMark .comma .semicolon).admits mark = true) :
    (reservedRange domain).Yields seen words node (mark :: rest) := by
  -- a number is not quoted, and the mark is not the word that announces the end of a range
  have hquoted : ∀ token : Token, Terminal.reservedNumber.admits token = true →
      token.isQuoted = false := by
    intro token htoken
    rw [← Bool.not_eq_true]
    intro hquoted
    rw [Terminal.admits, Lexeme.integer?_of_isQuoted hquoted] at htoken
    cases htoken
  have hword : (mark.lexeme == "to") = false := by
    simp only [admits_eitherMark, Token.isMark, Bool.or_eq_true, beq_iff_eq] at hmark
    rcases hmark with hmark | hmark <;> rw [hmark] <;> decide
  simp only [reservedRange, yields_refuseMixed_bind, yields_expect_bind, requireIn,
    yields_require_bind]
  cases h with
  | single h hfirst =>
    simp only [spells_cons, spells_nil, and_true] at h
    refine ⟨by simpa using hquoted _ h, _, _, rfl, h, hfirst, yields_bind.2 ⟨[], [], [], rfl, ?_,
      yields_pure.2 ⟨rfl, rfl⟩⟩⟩
    simp only [rangeEnd, yields_accept?_bind, Option.isSome_none, Bool.false_eq_true, if_false,
      yields_pure]
    exact .inr (by simpa using hword)
  | between h hfirst hstop hle =>
    simp only [spells_cons, spells_nil, and_true] at h
    refine ⟨by simpa using hquoted _ h.1, _, _, rfl, h.1, hfirst,
      yields_rangeEnd (by simpa using h.2.1) ?_ (fun _ => ⟨hstop, hle⟩)⟩
    rw [Terminal.admits, Bool.or_eq_true]
    exact .inr h.2.2
  | toMax h hfirst =>
    simp only [spells_cons, spells_nil, and_true, admits_word] at h
    refine ⟨by simpa using hquoted _ h.1, _, _, rfl, h.1, hfirst,
      yields_rangeEnd (by simpa using h.2.1) ?_ ?_⟩
    · simp [Terminal.admits, h.2.2]
    · rw [h.2.2]
      intro hsome
      exact absurd hsome (by decide)

/-- A row of reserved names starts with a quoted literal. -/
theorem Separated.exists_cons {close : Punctuation} {nodes : List Node}
    (h : Separated ReservedName close words nodes) :
    ∃ first others, words = first :: others ∧ first.isQuoted = true := by
  cases h with
  | last h _ | more h _ _ =>
    cases h with
    | intro h =>
      simp only [spells_cons, spells_nil, and_true] at h
      exact ⟨_, _, rfl, h⟩

theorem yields_of_reserved {domain : NumberDomain} (h : Line (.reserved domain) words node)
    (hregular : ∀ token ∈ words, token.Regular) :
    (Parse.reserved domain).Yields seen words node rest := by
  simp only [Parse.reserved, yields_expect_bind]
  cases h with
  | reservedNames hkeyword h =>
    simp only [spells_cons, spells_nil, and_true] at hkeyword
    rw [List.forall_mem_cons] at hregular
    obtain ⟨first, others, rfl, hfirst⟩ := h.exists_cons
    refine ⟨_, _, rfl, hkeyword, yields_bind.2 ⟨_, _, [], (List.append_nil _).symm, ?_,
      yields_pure.2 ⟨rfl, rfl⟩⟩⟩
    rw [reservations, yields_check_bind]
    -- the first entry decides what all of them are
    refine ⟨first, ⟨rfl, ?_⟩, ?_⟩
    · rw [Terminal.admits, hfirst, Bool.true_or]
    · rw [if_pos hfirst]
      refine yields_of_separated (by decide) ?_ h hregular.2
      exact fun hname hwords _ _ => yields_of_reservedName hname hwords
  | reservedRanges hkeyword hnumber h =>
    simp only [spells_cons, spells_nil, and_true] at hkeyword
    simp only [List.forall_mem_cons] at hregular
    refine ⟨_, _, rfl, hkeyword, yields_bind.2 ⟨_, _, [], (List.append_nil _).symm, ?_,
      yields_pure.2 ⟨rfl, rfl⟩⟩⟩
    rw [reservations, yields_check_bind]
    refine ⟨_, ⟨rfl, ?_⟩, ?_⟩
    · rw [Terminal.admits, hnumber, Bool.or_true]
    · rw [if_neg]
      · refine yields_of_separated (by decide) ?_ h (by simpa using hregular.2)
        exact fun hrange _ _ hmark => yields_of_reservedRange hrange hmark
      · intro hquoted
        rw [hregular.2.1.isNumber_of_isQuoted hquoted] at hnumber
        cases hnumber

theorem yields_of_fieldTail {nodes : List Node} (h : FieldTail words nodes)
    (hregular : ∀ token ∈ words, token.Regular) : fieldTail.Yields seen words nodes rest := by
  cases h with
  | intro h hoptions hend =>
    simp only [spells_cons, spells_nil, and_true] at h hend
    simp only [List.forall_mem_cons, List.forall_mem_append] at hregular
    simp only [fieldTail, yields_expect_bind]
    refine ⟨_, _, rfl, h.1, _, _, rfl, h.2.1, _, _, rfl, h.2.2, yields_bind.2 ⟨_, _, _, rfl,
      yields_of_optionList hoptions hregular.2.2.2.1 (by simpa using hend), ?_⟩⟩
    simp only [yields_expect_bind, yields_pure]
    exact ⟨_, _, rfl, hend, rfl, trivial⟩

theorem yields_of_map (h : Line .map words node) (hregular : ∀ token ∈ words, token.Regular) :
    Parse.map.Yields seen words node rest := by
  cases h with
  | map h htail =>
    simp only [spells_cons, spells_nil, and_true] at h
    simp only [List.forall_mem_cons] at hregular
    obtain ⟨hkeyword, hopener, hkey, hcomma, hvalue, hcloser⟩ := h
    simp only [Parse.map, yields_expect_bind]
    exact ⟨_, _, rfl, hkeyword, _, _, rfl, hopener, _, _, rfl, hkey, _, _, rfl, hcomma, _, _, rfl,
      hvalue, _, _, rfl, hcloser, yields_bind.2 ⟨_, _, [], (List.append_nil _).symm,
      yields_of_fieldTail htail hregular.2.2.2.2.2.2, yields_pure.2 ⟨rfl, rfl⟩⟩⟩

/-- A word that makes no label. -/
theorem labelKind?_of_typeBars {labelled : Bool} {lexeme : String}
    (h : lexeme ∉ typeBars labelled) : labelKind? lexeme = none := by
  rw [labelKind?, List.lookup_eq_none_iff]
  intro label hlabel
  rw [bne_iff_ne]
  rintro rfl
  have hall : ∀ label ∈ [("repeated", Node.Kind.repeated), ("optional", Node.Kind.optional)],
      label.1 ∈ typeBars labelled := by
    cases labelled <;> decide
  exact h (hall _ hlabel)

theorem yields_of_field {labelled : Bool} (h : Line (.field labelled) words node)
    (hregular : ∀ token ∈ words, token.Regular) :
    (Parse.field labelled).Yields seen words node rest := by
  cases h with
  | field htype hbars htail =>
    simp only [spells_cons, spells_nil, and_true] at htype
    rw [List.forall_mem_cons] at hregular
    -- the type is barred from being a label, and none is taken
    refine yields_bind.2 ⟨[], [], _, rfl, ?_, ?_⟩
    · simp only [fieldLabel, yields_accept?_bind, yields_pure]
      exact .inr (by simp [labelKind?_of_typeBars hbars])
    · simp only [yields_expect_bind]
      exact ⟨_, _, rfl, htype, yields_bind.2 ⟨_, _, [], (List.append_nil _).symm,
        yields_of_fieldTail htail hregular.2, yields_pure.2 ⟨rfl, rfl⟩⟩⟩
  | @labelledField label _ kind _ _ hlabel htype htail =>
    simp only [spells_cons, spells_nil, and_true] at htype
    simp only [List.forall_mem_cons] at hregular
    refine yields_bind.2 ⟨[label], [.leaf kind label.lexeme], _, rfl, ?_, ?_⟩
    · simp only [fieldLabel, yields_accept?_bind, yields_pure]
      exact .inl ⟨_, [], rfl, by simp [hlabel], rfl, by simp [hlabel]⟩
    · simp only [yields_expect_bind]
      exact ⟨_, _, rfl, htype, yields_bind.2 ⟨_, _, [], (List.append_nil _).symm,
        yields_of_fieldTail htail hregular.2.2, yields_pure.2 ⟨rfl, rfl⟩⟩⟩

theorem yields_of_constant (h : Line .constant words node)
    (hregular : ∀ token ∈ words, token.Regular) : Parse.constant.Yields seen words node rest := by
  cases h with
  | constant h hbars hnumber hoptions hend =>
    simp only [spells_cons, spells_nil, and_true] at h hend
    simp only [List.forall_mem_cons, List.forall_mem_append] at hregular
    simp only [Parse.constant, yields_expect_bind, yields_require_bind]
    refine ⟨_, _, rfl, h.1, _, _, rfl, h.2.1, _, _, rfl, h.2.2, hnumber, yields_bind.2 ⟨_, _, _,
      rfl, yields_of_optionList hoptions hregular.2.2.2.1 (by simpa using hend), ?_⟩⟩
    simp only [yields_expect_bind, yields_pure]
    exact ⟨_, _, rfl, hend, rfl, trivial⟩

/-- A payload is a stream exactly if a type follows the word for it. -/
theorem yields_of_payload {kind : Node.Kind} (h : Payload kind words node) :
    (payload kind).Yields seen words node rest := by
  simp only [payload, yields_expect_bind]
  cases h with
  | single h =>
    simp only [spells_cons, spells_nil, and_true] at h
    refine ⟨_, _, rfl, h.1, yields_bind.2 ⟨[], none, _, rfl, ?_, ?_⟩⟩
    · refine yields_streamWord.2 (.inr ⟨rfl, rfl, ?_⟩)
      -- the type is followed by the parenthesis, so that it is not the word for a stream
      rintro ⟨word, next, others, heq, -, hnext⟩
      cases heq
      have hcloser := h.2.2
      rw [admits_mark, hnext] at hcloser
      cases hcloser
    · simp only [yields_expect_bind, yields_pure]
      exact ⟨_, _, rfl, h.2.1, _, _, rfl, h.2.2, rfl, rfl⟩
  | @stream _ word _ _ h =>
    simp only [spells_cons, spells_nil, and_true] at h
    refine ⟨_, _, rfl, h.1, yields_bind.2 ⟨[word], some word, _, rfl, ?_, ?_⟩⟩
    · have htype := Token.isMark_of_isReference (Bool.and_eq_true_iff.1 h.2.2.1).2 .closeParen
      exact yields_streamWord.2 (.inl ⟨_, rfl, rfl, _, _, _, rfl, admits_word.1 h.2.1, htype⟩)
    · simp only [yields_expect_bind, yields_pure]
      exact ⟨_, _, rfl, h.2.2.1, _, _, rfl, h.2.2.2, rfl, rfl⟩

theorem yields_of_signature (h : Signature words node) :
    signature.Yields seen words node rest := by
  cases h with
  | intro h hinput hreturns houtput =>
    simp only [spells_cons, spells_nil, and_true] at h hreturns
    simp only [signature, yields_expect_bind]
    refine ⟨_, _, rfl, h.1, _, _, rfl, h.2, yields_bind.2 ⟨_, _, _, rfl, yields_of_payload hinput,
      ?_⟩⟩
    simp only [yields_expect_bind]
    exact ⟨_, _, rfl, hreturns, yields_bind.2 ⟨_, _, [], (List.append_nil _).symm,
      yields_of_payload houtput, yields_pure.2 ⟨rfl, rfl⟩⟩⟩

theorem yields_of_blockComment (h : Line (.comment .block) words node) :
    blockComment.Yields seen words node rest := by
  simp only [blockComment, yields_commentOpener_bind, yields_ite]
  cases h with
  | shortComment hopener hclosed =>
    refine ⟨_, _, rfl, hopener, ?_⟩
    rw [if_pos hclosed]
    exact yields_pure.2 ⟨rfl, rfl⟩
  | blockComment hopener hopen hothers hcloser =>
    refine ⟨_, _, rfl, hopener, ?_⟩
    rw [if_neg (by simp [hopen])]
    refine yields_bind.2 ⟨_, _, _, rfl, yields_takeUntil.2 ⟨rfl, hothers, by simpa using hcloser⟩,
      yields_bind.2 ⟨_, _, [], rfl, yields_commentCloser.2 rfl, yields_pure.2 ⟨rfl, rfl⟩⟩⟩

/-- A comment to the end of its line is read up to the line break. -/
theorem yields_of_lineComment (h : LineComment words node)
    (hnext : Next (·.isLineEnd = true) rest) :
    (Statement.comment .line).start.Yields seen words (.whole node) rest := by
  cases h with
  | intro hopener hothers =>
    refine yields_bind.2 ⟨_, _, [], (List.append_nil _).symm, ?_, yields_pure.2 ⟨rfl, rfl⟩⟩
    simp only [lineComment, yields_commentOpener_bind]
    exact ⟨_, _, rfl, hopener, yields_bind.2 ⟨_, _, [], (List.append_nil _).symm,
      yields_takeUntil.2 ⟨rfl, hothers, hnext⟩, yields_pure.2 ⟨rfl, rfl⟩⟩⟩

theorem yields_whole {parse : Parse Node} [Consumes parse] (h : parse.Yields seen words node rest) :
    (whole parse).Yields seen words (.whole node) rest :=
  yields_bind.2 ⟨words, node, [], (List.append_nil _).symm, h, yields_pure.2 ⟨rfl, rfl⟩⟩

/-- A signature and the mark after it. -/
theorem yields_of_method {mark : Token} {reading : Reading} (h : Signature words node)
    (hmark : (Terminal.eitherMark .semicolon .openBrace).admits mark = true)
    (hreading : (if mark.isMark .semicolon then .whole node else .opened ⟨.method, mark, node⟩) =
      reading) :
    Parse.method.Yields seen (words ++ [mark]) reading rest := by
  subst hreading
  refine yields_bind.2 ⟨_, _, _, rfl, yields_of_signature h, ?_⟩
  simp only [yields_expect_bind, yields_pure]
  exact ⟨_, _, rfl, hmark, rfl, rfl⟩

/-- **A statement without a body is read.** -/
theorem yields_of_line {statement : Statement} (h : Line statement words node)
    (hregular : ∀ token ∈ words, token.Regular) :
    statement.start.Yields seen words (.whole node) rest := by
  cases statement with
  | version => exact yields_whole (yields_of_version h)
  | importFile => exact yields_whole (yields_of_importFile h)
  | package => exact yields_whole (yields_of_package h)
  | option => exact yields_whole (yields_of_option h hregular)
  | field labelled => exact yields_whole (yields_of_field h hregular)
  | map => exact yields_whole (yields_of_map h hregular)
  | constant => exact yields_whole (yields_of_constant h hregular)
  | reserved domain => exact yields_whole (yields_of_reserved h hregular)
  | method =>
    cases h with
    | method h hend =>
      simp only [spells_cons, spells_nil, and_true, admits_mark] at hend
      refine yields_of_method h ?_ (if_pos hend)
      rw [admits_eitherMark, hend, Bool.true_or]
  | comment mark =>
    cases mark with
    | line => cases h
    | block => exact yields_whole (yields_of_blockComment h)
  | message | oneof | enum | service => cases h

theorem yields_header {kind : Node.Kind} {scope : Scope} {keyword name opener : Token}
    (h : Spells [.blockName keyword.lexeme, .mark .openBrace] [name, opener]) :
    (header kind scope).Yields seen [keyword, name, opener]
      (.opened ⟨scope, opener, ⟨kind, keyword.lexeme, [.leaf .identifier name.lexeme]⟩⟩) rest := by
  simp only [spells_cons, spells_nil, and_true] at h
  simp only [header, yields_anyToken_bind, yields_expect_bind, yields_pure]
  exact ⟨_, _, rfl, trivial, _, _, rfl, h.1, _, _, rfl, h.2, rfl, rfl⟩

/-- **A statement with a body is read up to its brace.** -/
theorem yields_of_opening {statement : Statement} {frame : Frame}
    (h : Opening statement words frame) :
    statement.start.Yields seen words (.opened frame) rest := by
  cases h with
  | named hblock h =>
    simp only [spells_cons, spells_nil, and_true, admits_word] at h
    obtain ⟨hword, hname, hopener⟩ := h
    cases statement <;> cases hblock <;> exact yields_header (by simp_all [Terminal.admits])
  | method h hopener =>
    simp only [spells_cons, spells_nil, and_true, admits_mark] at hopener
    refine yields_of_method h ?_ (if_neg (by simp [Token.isMark_eq_false hopener]))
    rw [admits_eitherMark, hopener, Bool.or_true]

end Grammar

end ProtoSchema
