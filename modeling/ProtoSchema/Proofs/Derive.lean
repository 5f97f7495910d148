import ProtoSchema.Proofs.Dispatch
import ProtoSchema.Proofs.Yields

/-!
# What is read is derived

Where reading a statement succeeds, the tokens it passed form a statement of the grammar, and the
node it gives is the one the grammar assigns to them. There is one lemma for each production.

* `Grammar.separated_of_yields`: a row of items.
* `Grammar.Read`: the production behind a reading, a whole statement or an opened block.
* `Grammar.read_of_yields`: every reading has one.
-/

namespace ProtoSchema.Grammar

open Parse

variable {α : Type} {seen words rest : List Token} {node : Node}

theorem version_of_yields (h : Parse.version.Yields seen words node rest) :
    Line .version words node := by
  simp only [Parse.version, yields_expect_bind, yields_require_bind, yields_pure] at h
  obtain ⟨keyword, _, rfl, hkeyword, equals, _, rfl, hequals, literal, _, rfl, hliteral, hversion,
    semicolon, _, rfl, hsemicolon, rfl, rfl⟩ := h
  exact .version (by simp_all) hversion

theorem importFile_of_yields (h : Parse.importFile.Yields seen words node rest) :
    Line .importFile words node := by
  simp only [Parse.importFile, yields_expect_bind, yields_accept?_bind, yields_pure] at h
  obtain ⟨keyword, _, rfl, hkeyword, ⟨modifier, _, rfl, hmodifier, path, _, rfl, hpath, semicolon,
    _, rfl, hsemicolon, rfl, rfl⟩ | ⟨-, path, _, rfl, hpath, semicolon, _, rfl, hsemicolon, rfl,
    rfl⟩⟩ := h
  · exact .qualifiedImport (by simp_all) hmodifier (by simp_all)
  · exact .plainImport (by simp_all)

theorem package_of_yields (h : Parse.package.Yields seen words node rest) :
    Line .package words node := by
  simp only [Parse.package, yields_expect_bind, yields_pure] at h
  obtain ⟨keyword, _, rfl, hkeyword, name, _, rfl, hname, semicolon, _, rfl, hsemicolon, rfl,
    rfl⟩ := h
  exact .package (by simp_all)

theorem optionName_of_yields {text : String} (h : Parse.optionName.Yields seen words text rest) :
    OptionName words text := by
  simp only [Parse.optionName, yields_accept?_bind, Option.isSome_some, Option.isSome_none,
    if_true, Bool.false_eq_true, if_false, extensionName, yields_expect_bind, yields_pure] at h
  obtain ⟨opener, _, rfl, hopener, name, _, rfl, hname, closer, _, rfl, hcloser, h⟩ |
    ⟨-, name, _, rfl, hname, rfl, rfl⟩ := h
  · have hspells : Spells [.mark .openParen, .extensionName, .mark .closeParen]
        [opener, name, closer] := by simp_all
    obtain ⟨path, _, rfl, hpath, rfl, rfl⟩ | ⟨-, rfl, rfl⟩ := h
    · exact .member hspells hpath
    · simpa using OptionName.extension hspells
  · exact .path (by simp_all)

theorem layout_of_yields {multiline : Bool} {value : Unit}
    (h : (layout multiline).Yields seen words value rest) : Layout multiline words := by
  cases multiline with
  | true => exact (yields_skipBreaks.1 h).1
  | false => exact (yields_pure.1 h).1

theorem assignment_of_yields {multiline : Bool}
    (h : (assignment multiline).Yields seen words node rest) :
    Assignment multiline words node := by
  simp only [assignment, yields_bind] at h
  obtain ⟨before, _, _, rfl, hbefore, name, text, _, rfl, hname, between, _, _, rfl, hbetween,
    _, equals, _, rfl, hequals, after, _, _, rfl, hafter, _, _, _, rfl, hvalue, h⟩ := h
  obtain ⟨rfl, rfl⟩ := yields_pure.1 h
  obtain ⟨rfl, hequals⟩ := yields_expect.1 hequals
  simp only [optionValue, yields_expect_bind, yields_pure] at hvalue
  obtain ⟨value, _, rfl, hvalue, rfl, rfl⟩ := hvalue
  exact .intro (layout_of_yields hbefore) (optionName_of_yields hname) (layout_of_yields hbetween)
    (by simp_all) (layout_of_yields hafter) (by simp_all)

theorem option_of_yields (h : Parse.option.Yields seen words node rest) :
    Line .option words node := by
  simp only [Parse.option, yields_expect_bind] at h
  obtain ⟨keyword, _, rfl, hkeyword, h⟩ := h
  obtain ⟨words, node, _, rfl, hassignment, h⟩ := yields_bind.1 h
  simp only [yields_expect_bind, yields_pure] at h
  obtain ⟨semicolon, _, rfl, hsemicolon, rfl, rfl⟩ := h
  exact .option (by simp_all) (assignment_of_yields hassignment) (by simp_all)

theorem listedOption_of_yields (h : listedOption.Yields seen words node rest) :
    ListedOption words node := by
  obtain ⟨words, node, _, rfl, hassignment, h⟩ := yields_bind.1 h
  simp only [yields_skipBreaks_bind, yields_pure] at h
  obtain ⟨after, _, rfl, hafter, -, rfl, rfl⟩ := h
  rw [List.append_nil]
  exact .intro (assignment_of_yields hassignment) hafter

/-- Items are read by a production, if each of them is. -/
theorem separated_of_yields {item : Parse α} [Lawful item] {production : List Token → α → Prop}
    {close : Punctuation} {values : List α}
    (hitem : ∀ {seen words value rest}, item.Yields seen words value rest → production words value)
    (h : (separated item close).Yields seen words values rest) :
    Separated production close words values := by
  -- each item and its mark leave a shorter list of tokens
  induction hn : words.length using Nat.strongRecOn generalizing seen words values with
  | ind n ih =>
    obtain ⟨first, value, mark, others, rfl, hfirst, hmark, hmore⟩ := yields_separated.1 h
    split at hmore
    · rename_i hclose
      obtain ⟨rfl, rfl⟩ := hmore
      exact .last (hitem hfirst) (by simp_all)
    · rename_i hclose
      obtain ⟨values, rfl, hmore⟩ := hmore
      subst hn
      have hlength : others.length < (first ++ mark :: others).length := by
        rw [List.length_append, List.length_cons]
        omega
      exact .more (hitem hfirst) (by simp_all) (ih _ hlength hmore rfl)

theorem Separated.ne_nil {production : List Token → α → Prop} {close : Punctuation}
    {values : List α} (h : Separated production close words values) : words ≠ [] := by
  cases h <;> simp

theorem optionList_of_yields {nodes : List Node} (h : optionList.Yields seen words nodes rest) :
    OptionList words nodes := by
  simp only [optionList, yields_accept?_bind, Option.isSome_some, Option.isSome_none,
    if_true, Bool.false_eq_true, if_false, yields_pure] at h
  obtain ⟨opener, others, rfl, hopener, h⟩ | ⟨-, rfl, rfl⟩ := h
  · exact .listed (by simp_all) (separated_of_yields listedOption_of_yields h)
  · exact .absent

theorem reservedName_of_yields (h : reservedName.Yields seen words node rest) :
    ReservedName words node := by
  simp only [reservedName, yields_refuseMixed_bind, yields_expect_bind, yields_pure] at h
  obtain ⟨-, literal, _, rfl, hliteral, rfl, rfl⟩ := h
  exact .intro (by simp_all)

theorem reservedRange_of_yields {domain : NumberDomain}
    (h : (reservedRange domain).Yields seen words node rest) :
    ReservedRange domain words node := by
  simp only [reservedRange, yields_refuseMixed_bind, yields_expect_bind] at h
  obtain ⟨-, first, _, rfl, hfirst, h⟩ := h
  rw [requireIn, yields_require_bind] at h
  obtain ⟨hin, h⟩ := h
  obtain ⟨_, ends, _, rfl, hends, h⟩ := yields_bind.1 h
  obtain ⟨rfl, rfl⟩ := yields_pure.1 h
  simp only [rangeEnd, yields_accept?_bind, Option.isSome_some, Option.isSome_none, if_true,
    Bool.false_eq_true, if_false, yields_expect_bind, yields_pure] at hends
  obtain ⟨word, _, rfl, hword, stop, _, rfl, hstop, hends⟩ | ⟨-, rfl, rfl⟩ := hends
  · obtain ⟨_, _, _, rfl, hrequire, hpure⟩ := yields_bind.1 hends
    obtain ⟨rfl, rfl⟩ := yields_pure.1 hpure
    obtain ⟨rfl, hvalue⟩ := yields_requireRangeEnd.1 hrequire
    -- an end that is no number can only be `max`
    cases hinteger : (Lexeme.integer? stop.lexeme).isSome with
    | true =>
      obtain ⟨hstopin, hle⟩ := hvalue hinteger
      exact .between (by simp_all [Terminal.admits]) hin hstopin hle
    | false => exact .toMax (by simp_all [Terminal.admits]) hin
  · exact .single (by simp_all) hin

theorem reserved_of_yields {domain : NumberDomain}
    (h : (Parse.reserved domain).Yields seen words node rest) :
    Line (.reserved domain) words node := by
  simp only [Parse.reserved, yields_expect_bind] at h
  obtain ⟨keyword, _, rfl, hkeyword, h⟩ := h
  obtain ⟨entries, nodes, _, rfl, hentries, h⟩ := yields_bind.1 h
  obtain ⟨rfl, rfl⟩ := yields_pure.1 h
  rw [reservations, yields_check_bind] at hentries
  obtain ⟨first, ⟨hhead, hadmits⟩, hentries⟩ := hentries
  rw [yields_ite] at hentries
  rw [List.append_nil]
  -- the token that was looked at is the first of the entries
  split at hentries
  · exact .reservedNames (by simp_all) (separated_of_yields reservedName_of_yields hentries)
  · rename_i hquoted
    have hranges := separated_of_yields reservedRange_of_yields hentries
    obtain ⟨first', others, rfl⟩ := List.exists_cons_of_ne_nil hranges.ne_nil
    obtain rfl : first' = first := by simpa using hhead
    exact .reservedRanges (by simp_all) (by simp_all [Terminal.admits]) hranges

theorem fieldTail_of_yields {nodes : List Node} (h : fieldTail.Yields seen words nodes rest) :
    FieldTail words nodes := by
  simp only [fieldTail, yields_expect_bind] at h
  obtain ⟨name, _, rfl, hname, equals, _, rfl, hequals, number, _, rfl, hnumber, h⟩ := h
  obtain ⟨options, nodes, _, rfl, hoptions, h⟩ := yields_bind.1 h
  simp only [yields_expect_bind, yields_pure] at h
  obtain ⟨semicolon, _, rfl, hsemicolon, rfl, rfl⟩ := h
  exact .intro (by simp_all) (optionList_of_yields hoptions) (by simp_all)

theorem map_of_yields (h : Parse.map.Yields seen words node rest) : Line .map words node := by
  simp only [Parse.map, yields_expect_bind] at h
  obtain ⟨keyword, _, rfl, hkeyword, opener, _, rfl, hopener, key, _, rfl, hkey, comma, _, rfl,
    hcomma, value, _, rfl, hvalue, closer, _, rfl, hcloser, h⟩ := h
  obtain ⟨tail, nodes, _, rfl, htail, h⟩ := yields_bind.1 h
  obtain ⟨rfl, rfl⟩ := yields_pure.1 h
  rw [List.append_nil]
  exact .map (by simp_all) (fieldTail_of_yields htail)

theorem payload_of_yields {kind : Node.Kind} (h : (payload kind).Yields seen words node rest) :
    Payload kind words node := by
  simp only [payload, yields_expect_bind] at h
  obtain ⟨opener, _, rfl, hopener, h⟩ := h
  obtain ⟨_, stream, _, rfl, hstream, h⟩ := yields_bind.1 h
  simp only [yields_expect_bind, yields_pure] at h
  obtain ⟨type, _, rfl, htype, closer, _, rfl, hcloser, rfl, rfl⟩ := h
  obtain ⟨word, rfl, rfl, _, _, _, heq, hword, -⟩ | ⟨rfl, rfl, -⟩ := yields_streamWord.1 hstream
  · cases heq
    exact .stream (by simp_all)
  · exact .single (by simp_all)

theorem signature_of_yields (h : signature.Yields seen words node rest) :
    Signature words node := by
  simp only [signature, yields_expect_bind] at h
  obtain ⟨keyword, _, rfl, hkeyword, name, _, rfl, hname, h⟩ := h
  obtain ⟨input, request, _, rfl, hinput, h⟩ := yields_bind.1 h
  simp only [yields_expect_bind] at h
  obtain ⟨returns, _, rfl, hreturns, h⟩ := h
  obtain ⟨output, response, _, rfl, houtput, h⟩ := yields_bind.1 h
  obtain ⟨rfl, rfl⟩ := yields_pure.1 h
  rw [List.append_nil]
  exact .intro (by simp_all) (payload_of_yields hinput) (by simp_all) (payload_of_yields houtput)

/-- A field is read by the grammar where it was chosen by its first word. -/
theorem field_of_yields {scope : Scope} {labelled : Bool}
    (h : (Parse.field labelled).Yields seen words node rest)
    (hstart : Next (fun token => scope.statement? token.lexeme = some (.field labelled)) words) :
    Line (.field labelled) words node := by
  obtain ⟨_, label, _, rfl, hlabel, h⟩ := yields_bind.1 h
  simp only [yields_expect_bind] at h
  obtain ⟨type, _, rfl, htype, h⟩ := h
  obtain ⟨tail, nodes, _, rfl, htail, h⟩ := yields_bind.1 h
  obtain ⟨rfl, rfl⟩ := yields_pure.1 h
  have hfields := fieldTail_of_yields htail
  simp only [fieldLabel, yields_accept?_bind, yields_pure] at hlabel
  obtain ⟨token, _, rfl, htest, rfl, rfl⟩ | ⟨hnone, rfl, rfl⟩ := hlabel
  · obtain ⟨rfl, hkind⟩ := Bool.and_eq_true_iff.1 htest
    obtain ⟨kind, hkind⟩ := Option.isSome_iff_exists.1 hkind
    simp only [Option.toList, List.filterMap_cons, hkind, Option.map_some, List.filterMap_nil,
      List.append_nil]
    exact .labelledField hkind (by simp_all) hfields
  -- no label was taken, so that the statement was chosen by the type
  · simp only [List.nil_append, List.append_nil, List.cons_append, next_cons] at hstart hnone ⊢
    have hbars : type.lexeme ∉ typeBars labelled := by
      refine (Scope.type_of_field hstart).resolve_left ?_
      rintro ⟨rfl, hkind⟩
      simp [hkind] at hnone
    exact .field (by simp_all) hbars hfields

/-- A constant is read by the grammar where it was chosen by its first word. -/
theorem constant_of_yields {scope : Scope} (h : Parse.constant.Yields seen words node rest)
    (hstart : Next (fun token => scope.statement? token.lexeme = some .constant) words) :
    Line .constant words node := by
  simp only [Parse.constant, yields_expect_bind, yields_require_bind] at h
  obtain ⟨name, _, rfl, hname, equals, _, rfl, hequals, number, _, rfl, hnumber, hdomain, h⟩ := h
  obtain ⟨options, nodes, _, rfl, hoptions, h⟩ := yields_bind.1 h
  simp only [yields_expect_bind, yields_pure] at h
  obtain ⟨semicolon, _, rfl, hsemicolon, rfl, rfl⟩ := h
  rw [next_cons] at hstart
  exact .constant (by simp_all) (Scope.name_of_constant hstart) hdomain
    (optionList_of_yields hoptions) (by simp_all)

theorem lineComment_of_yields (h : lineComment.Yields seen words node rest) :
    LineComment words node ∧ Next (·.isLineEnd = true) rest := by
  simp only [lineComment, yields_commentOpener_bind] at h
  obtain ⟨opener, _, rfl, hopener, h⟩ := h
  obtain ⟨others, _, _, rfl, hothers, h⟩ := yields_bind.1 h
  obtain ⟨rfl, rfl⟩ := yields_pure.1 h
  obtain ⟨rfl, hothers, hnext⟩ := yields_takeUntil.1 hothers
  rw [List.append_nil]
  exact ⟨.intro hopener hothers, by simpa using hnext⟩

theorem blockComment_of_yields (h : blockComment.Yields seen words node rest) :
    Line (.comment .block) words node := by
  simp only [blockComment, yields_commentOpener_bind] at h
  obtain ⟨opener, _, rfl, hopener, h⟩ := h
  rw [yields_ite] at h
  split at h
  · rename_i hclosed
    obtain ⟨rfl, rfl⟩ := yields_pure.1 h
    exact .shortComment hopener hclosed
  · rename_i hopen
    obtain ⟨others, _, _, rfl, hothers, h⟩ := yields_bind.1 h
    obtain ⟨_, closer, _, rfl, hcloser, h⟩ := yields_bind.1 h
    obtain ⟨rfl, rfl⟩ := yields_pure.1 h
    obtain rfl := yields_commentCloser.1 hcloser
    obtain ⟨rfl, hothers, hnext⟩ := yields_takeUntil.1 hothers
    exact .blockComment hopener (by simpa using hopen) hothers (by simpa using hnext)

theorem whole_of_yields {parse : Parse Node} [Consumes parse] {reading : Reading}
    (h : (whole parse).Yields seen words reading rest) :
    ∃ node, reading = .whole node ∧ parse.Yields seen words node rest := by
  obtain ⟨_, node, _, rfl, hnode, h⟩ := yields_bind.1 h
  obtain ⟨rfl, rfl⟩ := yields_pure.1 h
  exact ⟨node, rfl, by simpa using hnode⟩

theorem header_of_yields {kind : Node.Kind} {inner : Scope} {reading : Reading}
    (h : (header kind inner).Yields seen words reading rest) :
    ∃ keyword name opener, words = [keyword, name, opener] ∧
      Spells [.blockName keyword.lexeme, .mark .openBrace] [name, opener] ∧
      reading =
        .opened ⟨inner, opener, ⟨kind, keyword.lexeme, [.leaf .identifier name.lexeme]⟩⟩ := by
  simp only [header, yields_anyToken_bind, yields_expect_bind, yields_pure] at h
  obtain ⟨keyword, _, rfl, -, name, _, rfl, hname, opener, _, rfl, hopener, rfl, rfl⟩ := h
  exact ⟨keyword, name, opener, rfl, by simp_all, rfl⟩

theorem method_of_yields {reading : Reading} (h : Parse.method.Yields seen words reading rest) :
    (∃ node, reading = .whole node ∧ Line .method words node) ∨
      ∃ frame, reading = .opened frame ∧ Opening .method words frame := by
  obtain ⟨words, node, _, rfl, hsignature, h⟩ := yields_bind.1 h
  have hmethod := signature_of_yields hsignature
  simp only [yields_expect_bind, yields_pure] at h
  obtain ⟨mark, _, rfl, hmark, rfl, rfl⟩ := h
  split
  · rename_i hsemicolon
    exact .inl ⟨node, rfl, .method hmethod (by simp_all)⟩
  · rename_i hsemicolon
    exact .inr ⟨_, rfl, .method hmethod (by simp_all)⟩

/-- A production of the grammar for what reading a statement gives. -/
def Read (statement : Statement) (words : List Token) (rest : List Token) : Reading → Prop
  | .whole node =>
    Line statement words node ∨
      statement = .comment .line ∧ LineComment words node ∧ Next (·.isLineEnd = true) rest
  | .opened frame => Opening statement words frame

/-- **A statement is read by the grammar** where it was chosen by its first word. -/
theorem read_of_yields {scope : Scope} {statement : Statement} {reading : Reading}
    (h : statement.start.Yields seen words reading rest)
    (hstart : Next (fun token => scope.statement? token.lexeme = some statement) words) :
    Read statement words rest reading := by
  cases statement with
  | version =>
    obtain ⟨node, rfl, hnode⟩ := whole_of_yields h
    exact .inl (version_of_yields hnode)
  | importFile =>
    obtain ⟨node, rfl, hnode⟩ := whole_of_yields h
    exact .inl (importFile_of_yields hnode)
  | package =>
    obtain ⟨node, rfl, hnode⟩ := whole_of_yields h
    exact .inl (package_of_yields hnode)
  | option =>
    obtain ⟨node, rfl, hnode⟩ := whole_of_yields h
    exact .inl (option_of_yields hnode)
  | field labelled =>
    obtain ⟨node, rfl, hnode⟩ := whole_of_yields h
    exact .inl (field_of_yields hnode hstart)
  | map =>
    obtain ⟨node, rfl, hnode⟩ := whole_of_yields h
    exact .inl (map_of_yields hnode)
  | constant =>
    obtain ⟨node, rfl, hnode⟩ := whole_of_yields h
    exact .inl (constant_of_yields hnode hstart)
  | reserved domain =>
    obtain ⟨node, rfl, hnode⟩ := whole_of_yields h
    exact .inl (reserved_of_yields hnode)
  | comment mark =>
    cases mark with
    | line =>
      obtain ⟨node, rfl, hnode⟩ := whole_of_yields h
      exact .inr ⟨rfl, lineComment_of_yields hnode⟩
    | block =>
      obtain ⟨node, rfl, hnode⟩ := whole_of_yields h
      exact .inl (blockComment_of_yields hnode)
  | method =>
    obtain ⟨node, rfl, hline⟩ | ⟨frame, rfl, hopening⟩ := method_of_yields h
    · exact .inl hline
    · exact hopening
  | message | oneof | enum | service =>
    obtain ⟨keyword, name, opener, rfl, hspells, rfl⟩ := header_of_yields h
    rw [next_cons] at hstart
    have hword := Scope.lexeme_of_namedBlock? hstart rfl
    exact .named rfl (by simp_all [Terminal.admits])

end ProtoSchema.Grammar
