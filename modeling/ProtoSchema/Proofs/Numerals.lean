import ProtoSchema.Proofs.Lexing
import ProtoSchema.Proofs.Literals
import ProtoSchema.Proofs.Progress
import ProtoSchema.Proofs.Shapes
import ProtoSchema.Proofs.Written

/-!
# Integers and numbers

Two rules say what an integer is: the shape of numbers, which gives a token its kind, and the value
of integers, which statements ask for. They agree but for one thing: digits behind `0x` or behind a
leading `0` may carry a sign of their own, and then the word has a value and is no number.

* `Lexeme.hasInnerSign`: such a word.
* `Lexeme.isNumber_of_integer?`: all other integers are numbers, and these are not.
* `Token.Regular.kind_of_integer?`: the same for the kind of a token.
* `Grammar.gives_copied`: the numerals of a tree are words of its tokens.
* `integers_are_numbers`: the integers of a text.
-/

namespace ProtoSchema

namespace Lexeme

variable {lexeme : String} {body text digits : List Char} {base : Nat} {c : Char}

/-! ### Digits -/

theorem isHexDigit_of_digitValue (h : digitValue c < 16) : isHexDigit c = true := by
  unfold digitValue at h
  split at h
  · rename_i hdigit
    simp [isHexDigit, hdigit]
  · split at h
    · rename_i hlower
      simp only [Char.le_def, UInt32.le_iff_toNat_le, Bool.and_eq_true, decide_eq_true_eq]
        at hlower
      have hvalue : c.toNat ≤ 102 := by omega
      simp only [isHexDigit, Char.le_def, UInt32.le_iff_toNat_le, Bool.or_eq_true,
        Bool.and_eq_true, decide_eq_true_eq]
      exact .inl (.inr ⟨hlower.1, hvalue⟩)
    · split at h
      · rename_i hupper
        simp only [Char.le_def, UInt32.le_iff_toNat_le, Bool.and_eq_true, decide_eq_true_eq]
          at hupper
        have hvalue : c.toNat ≤ 70 := by omega
        simp only [isHexDigit, Char.le_def, UInt32.le_iff_toNat_le, Bool.or_eq_true,
          Bool.and_eq_true, decide_eq_true_eq]
        exact .inr ⟨hupper.1, hvalue⟩
      · omega

theorem isDigit_of_digitValue (h : digitValue c < 10) : c.isDigit = true := by
  by_contra hdigit
  simp only [digitValue, hdigit, if_false, Char.le_def, UInt32.le_iff_toNat_le,
    Bool.and_eq_true, decide_eq_true_eq] at h
  split at h
  · rename_i hlower
    have hvalue : 97 ≤ c.toNat := hlower.1
    omega
  · split at h
    · rename_i hupper
      have hvalue : 65 ≤ c.toNat := hupper.1
      omega
    · omega

/-- Digits that have a value, and no sign in front, are digits of the base. -/
theorem digits_of_word? (h : (word? base (c :: digits)).isSome = true) (hsign : isSign c = false) :
    ∀ d ∈ c :: digits, digitValue d < base := by
  have hplus : c ≠ '+' := by
    rintro rfl
    exact absurd hsign (by decide)
  have hminus : c ≠ '-' := by
    rintro rfl
    exact absurd hsign (by decide)
  have hword : word? base (c :: digits) =
      (natural? base (c :: digits)).bind fun n => inWord? n := by
    unfold word?
    split <;> simp_all
  obtain ⟨value, hvalue⟩ := Option.isSome_iff_exists.1 h
  rw [hword] at hvalue
  obtain ⟨n, hn, -⟩ := Option.bind_eq_some_iff.1 hvalue
  unfold natural? at hn
  split at hn
  · rename_i hall
    simpa using hall
  · cases hn

/-! ### A sign inside a word -/

/-- Whether digits behind `0x` or behind a leading `0` carry a sign of their own. -/
def innerSigned : List Char → Bool
  | '0' :: 'x' :: c :: _ => isSign c
  | '0' :: 'X' :: c :: _ => isSign c
  | '0' :: c :: _ => isSign c
  | _ => false

/-- Whether a sign stands inside a word, behind the digits that tell the base. -/
def hasInnerSign (lexeme : String) : Bool := innerSigned (unsigned lexeme.toList)

/-- A sign in front of an integer changes its value only. -/
theorem isSome_integer? (lexeme : String) :
    (integer? lexeme).isSome = (magnitude? (unsigned lexeme.toList)).isSome := by
  unfold integer?
  split
  · rename_i hlexeme
    simp [hlexeme, unsigned, isSign]
  · rename_i hlexeme
    simp [hlexeme, unsigned, isSign]
  · rename_i hminus hplus
    cases hlexeme : lexeme.toList with
    | nil => rfl
    | cons c rest =>
      have hsign : isSign c = false := by
        rw [← Bool.not_eq_true]
        intro hsign
        rcases Bool.or_eq_true_iff.1 hsign with h | h
        · exact hplus rest (by rw [hlexeme, beq_iff_eq.1 h])
        · exact hminus rest (by rw [hlexeme, beq_iff_eq.1 h])
      simp [unsigned, hsign]

theorem isHexNumeral_of_word? {x : Char} (hx : x = 'x' ∨ x = 'X')
    (h : (word? 16 digits).isSome = true) (hsign : innerSigned ('0' :: x :: digits) = false) :
    isHexNumeral ('0' :: x :: digits) = true := by
  cases digits with
  | nil => cases h
  | cons c rest =>
    have hfirst : isSign c = false := by rcases hx with rfl | rfl <;> exact hsign
    have hall := digits_of_word? h hfirst
    have hdigits : ∀ d ∈ c :: rest, isHexDigit d = true := fun d hd =>
      isHexDigit_of_digitValue (hall d hd)
    have htest : (c :: rest).all isHexDigit = true := List.all_eq_true.2 hdigits
    rcases hx with rfl | rfl <;> simp only [isHexNumeral, htest] <;> rfl

/-- **Without a sign inside, an integer is a numeral.** -/
theorem numeral_of_magnitude? (h : (magnitude? body).isSome = true)
    (hsign : innerSigned body = false) : isHexNumeral body = true ∨ isDigits body = true := by
  unfold magnitude? at h
  split at h
  · exact .inl (isHexNumeral_of_word? (.inl rfl) h hsign)
  · exact .inl (isHexNumeral_of_word? (.inr rfl) h hsign)
  · -- an octal numeral is a run of decimal digits
    rename_i c rest hlower hupper
    have hfirst : isSign c = false := by
      unfold innerSigned at hsign
      split at hsign <;> simp_all
    have hall := digits_of_word? h hfirst
    refine .inr ?_
    simp only [isDigits, List.isEmpty_cons, Bool.not_false, Bool.true_and, List.all_eq_true]
    intro d hd
    rcases List.mem_cons.1 hd with rfl | hd
    · decide
    · have hvalue := hall d hd
      exact isDigit_of_digitValue (by omega)
  · split at h
    · exact .inr (by assumption)
    · cases h

/-- A word with a sign inside is no numeral. -/
theorem not_numeral_of_innerSigned (h : innerSigned body = true) :
    isHexNumeral body = false ∧ isDecimalNumeral body = false ∧ body.head? = some '0' := by
  have hhex : ∀ d, isSign d = true → isHexDigit d = false ∧ d.isDigit = false ∧ d ≠ '.' ∧
      (d == 'e' || d == 'E') = false ∧ d ≠ 'x' ∧ d ≠ 'X' := by
    intro d hd
    rcases Bool.or_eq_true_iff.1 hd with hd | hd
    · rw [beq_iff_eq.1 hd]
      decide
    · rw [beq_iff_eq.1 hd]
      decide
  unfold innerSigned at h
  split at h
  · obtain ⟨hdigit, -⟩ := hhex _ h
    simp [isHexNumeral, isDecimalNumeral, isExponent, hdigit]
  · obtain ⟨hdigit, -⟩ := hhex _ h
    simp [isHexNumeral, isDecimalNumeral, isExponent, hdigit]
  · obtain ⟨-, hdigit, hdot, hexponent, hlower, hupper⟩ := hhex _ h
    simp_all [isHexNumeral, isDecimalNumeral, isExponent]
  · cases h

/-- **An integer is a number, unless there is a sign inside it.** -/
theorem isNumber_of_integer? (h : (integer? lexeme).isSome = true) :
    isNumber lexeme = !hasInnerSign lexeme := by
  rw [isSome_integer?] at h
  unfold hasInnerSign
  cases hsign : innerSigned (unsigned lexeme.toList) with
  | false =>
    rcases numeral_of_magnitude? h hsign with hhex | hdigits
    · simp [isNumber, hhex]
    · exact isNumber_of_digits rfl hdigits
  | true =>
    obtain ⟨hhex, hdecimal, hhead⟩ := not_numeral_of_innerSigned hsign
    have hinf : unsigned lexeme.toList ≠ ['i', 'n', 'f'] := by
      intro hbody
      rw [hbody] at hhead
      exact absurd hhead (by decide)
    have hnan : lexeme.toList ≠ ['n', 'a', 'n'] := by
      intro htext
      rw [htext] at hhead
      exact absurd hhead (by decide)
    simp [isNumber, hhex, hdecimal, hinf, hnan]

end Lexeme

/-! ### Kinds of tokens -/

variable {token : Token} {tokens words : List Token} {node : Node} {tape after : Tape}

/-- The kind of a word that is an integer. -/
theorem TokenKind.ofLexeme_of_integer? {lexeme : String}
    (h : (Lexeme.integer? lexeme).isSome = true) :
    ofLexeme lexeme = .number ↔ Lexeme.hasInnerSign lexeme = false := by
  have hnumber := Lexeme.isNumber_of_integer? h
  constructor
  · intro hkind
    have hregular : (Token.ofLexeme .start lexeme).Regular := .inr rfl
    have hlexeme := hregular.isNumber_lexeme (by simp [Token.isNumber, Token.ofLexeme, hkind])
    rw [show (Token.ofLexeme .start lexeme).lexeme = lexeme from rfl, hnumber] at hlexeme
    simpa using hlexeme
  · intro hsign
    rw [hsign] at hnumber
    exact beq_iff_eq.1 (@Token.isNumber_of_isNumber .start lexeme hnumber)

/-- **An integer stands in a token of the kind of numbers, unless there is a sign inside it.** -/
theorem Token.Regular.kind_of_integer? (hregular : token.Regular)
    (h : (Lexeme.integer? token.lexeme).isSome = true) :
    token.kind = .number ↔ Lexeme.hasInnerSign token.lexeme = false := by
  rcases hregular with ⟨-, hend⟩ | hkind
  · rw [hend] at h
    exact absurd h (by decide)
  · rw [hkind]
    exact TokenKind.ofLexeme_of_integer? h

/-! ### Numerals of a tree -/

/-- The classes of tokens that statements take for numbers of fields, constants and reservations. -/
def Terminal.numerals : List Terminal := [.fieldNumber, .enumValue, .reservedNumber, .rangeEnd]

/-- A token of such a class is an integer, or ends a range with the word for the greatest number. -/
theorem Terminal.integer?_of_admits {terminal : Terminal} (hmem : terminal ∈ numerals)
    (hadmits : terminal.admits token = true) :
    (Lexeme.integer? token.lexeme).isSome = true ∨ terminal = .rangeEnd ∧ token.lexeme = "max" := by
  simp only [numerals, List.mem_cons, List.not_mem_nil, or_false] at hmem
  rcases hmem with rfl | rfl | rfl | rfl
  · exact .inl (Option.isSome_of_any hadmits)
  · exact .inl hadmits
  · exact .inl hadmits
  · rw [admits, Bool.or_eq_true, beq_iff_eq] at hadmits
    rcases hadmits with hmax | hinteger
    · exact .inr ⟨rfl, hmax⟩
    · exact .inl hinteger

/-- Whether nodes of a kind may hold numbers. -/
def Node.Kind.holdsNumber : Kind → Bool
  | fieldNumber | range | rangeEnd => true
  | _ => false

theorem Node.Kind.holdsNumber_of_field {kind : Kind}
    (h : kind.isType = true ∨ kind.isLabel = true) : kind.holdsNumber = false := by
  cases kind <;> revert h <;> decide

/-- A node that holds a number: of a field or a constant, or at an end of a range. -/
def Node.IsNumeral (node : Node) : Prop :=
  node.kind = .fieldNumber ∨ node.kind = .range ∨ node.kind = .rangeEnd ∧ node.value ≠ "max"

/-- A node that holds a number has it from a token that is an integer. -/
def Node.Copied (tokens : List Token) (node : Node) : Prop :=
  node.IsNumeral →
    ∃ token ∈ tokens, token.lexeme = node.value ∧ (Lexeme.integer? token.lexeme).isSome = true

namespace Grammar

open Node

theorem copied_of_kind (h : node.kind.holdsNumber = false) : node.Copied tokens := by
  rintro (hkind | hkind | ⟨hkind, -⟩) <;> rw [hkind] at h <;> cases h

theorem copied_of_admits {terminal : Terminal} {kind : Node.Kind} {children : List Node}
    (hmem : token ∈ tokens) (hadmits : terminal.admits token = true)
    (hterminal : terminal ∈ [.fieldNumber, .enumValue, .reservedNumber]) :
    Node.Copied tokens ⟨kind, token.lexeme, children⟩ := by
  have hnumeral : terminal ∈ [.fieldNumber, .enumValue, .reservedNumber] ++ [.rangeEnd] :=
    List.mem_append_left _ hterminal
  rcases Terminal.integer?_of_admits hnumeral hadmits with hinteger | ⟨rfl, -⟩
  · exact fun _ => ⟨token, hmem, rfl, hinteger⟩
  · simp at hterminal

/-- Nodes without numbers, whose children are leaves without numbers. -/
theorem every_copied_of_kinds
    (h : ∀ part ∈ node :: node.children, part.kind.holdsNumber = false)
    (hleaves : ∀ child ∈ node.children, child.children = []) : Every (Copied tokens) node := by
  rw [List.forall_mem_cons] at h
  exact every_of_leaves (copied_of_kind h.1) fun child hchild =>
    ⟨copied_of_kind (h.2 child hchild), hleaves child hchild⟩

theorem every_copied_setting (setting : Setting) : Every (Copied tokens) setting.toNode :=
  every_copied_of_kinds (by simp [Setting.toNode, leaf, Kind.holdsNumber])
    (by simp [Setting.toNode, leaf])

theorem FieldTail.every_copied {nodes : List Node} (hwords : words ⊆ tokens)
    (h : FieldTail words nodes) : ∀ node ∈ nodes, Every (Copied tokens) node := by
  cases h with
  | intro h hoptions _ =>
    simp only [spells_cons, spells_nil, and_true] at h
    refine List.forall_mem_cons.2 ⟨every_leaf (copied_of_kind rfl), ?_⟩
    refine List.forall_mem_cons.2 ⟨every_leaf ?_, hoptions.every every_copied_setting⟩
    exact copied_of_admits (hwords (by simp)) h.2.2 (by simp)

theorem ReservedRange.every_copied {domain : NumberDomain} (hwords : words ⊆ tokens)
    (h : ReservedRange domain words node) : Every (Copied tokens) node := by
  cases h with
  | single h _ =>
    simp only [spells_cons, spells_nil, and_true] at h
    exact every_leaf (copied_of_admits (hwords (by simp)) h (by simp))
  | between h _ _ _ =>
    simp only [spells_cons, spells_nil, and_true] at h
    refine every_of_leaves (copied_of_admits (hwords (by simp)) h.1 (by simp)) ?_
    rintro child hchild
    rw [List.mem_singleton.1 hchild]
    exact ⟨copied_of_admits (hwords (by simp)) h.2.2 (by simp), rfl⟩
  | toMax h _ =>
    simp only [spells_cons, spells_nil, and_true, admits_word] at h
    refine every_of_leaves (copied_of_admits (hwords (by simp)) h.1 (by simp)) ?_
    rintro child hchild
    rw [List.mem_singleton.1 hchild]
    refine ⟨?_, rfl⟩
    -- the word for the greatest number is no numeral
    rintro (hkind | hkind | ⟨-, hmax⟩)
    · cases hkind
    · cases hkind
    · exact absurd h.2.2 hmax

theorem Payload.every_copied {kind : Node.Kind} (hkind : kind.holdsNumber = false)
    (h : Payload kind words node) : Every (Copied tokens) node := by
  cases h with
  | single _ => exact every_copied_of_kinds (by simpa using hkind) (by simp)
  | stream _ =>
    exact every_copied_of_kinds (by simpa [leaf, Kind.holdsNumber] using hkind) (by simp [leaf])

theorem Signature.every_copied (h : Signature words node) : Every (Copied tokens) node := by
  cases h with
  | intro _ hinput _ houtput =>
    refine .intro (copied_of_kind rfl) ?_
    refine List.forall_mem_cons.2 ⟨every_leaf (copied_of_kind rfl), ?_⟩
    refine List.forall_mem_cons.2 ⟨hinput.every_copied rfl, ?_⟩
    exact List.forall_mem_cons.2 ⟨houtput.every_copied rfl, by simp⟩

theorem Line.every_copied {statement : Statement} (hwords : words ⊆ tokens)
    (h : Line statement words node) : Every (Copied tokens) node := by
  cases h with
  | version | plainImport | qualifiedImport | package =>
    exact every_copied_of_kinds (by simp [leaf, Kind.holdsNumber]) (by simp [leaf])
  | shortComment | blockComment =>
    exact every_copied_of_kinds (by simp [Parse.commentNode, leaf, Kind.holdsNumber])
      (by simp [Parse.commentNode, leaf])
  | option _ h _ =>
    obtain ⟨setting, rfl, -⟩ := h.exists_setting
    exact every_copied_setting setting
  | @field _ type _ _ _ _ htail =>
    have htype := Node.Kind.holdsNumber_of_field (.inl (Parse.isType_typeKind type.lexeme))
    have hothers := htail.every_copied (List.Subset.trans (List.subset_cons_self _ _) hwords)
    exact .intro (copied_of_kind rfl)
      (List.forall_mem_cons.2 ⟨every_leaf (copied_of_kind htype), hothers⟩)
  | @labelledField label type kind _ _ hlabel _ htail =>
    have htype := Node.Kind.holdsNumber_of_field (.inl (Parse.isType_typeKind type.lexeme))
    have hkind := Node.Kind.holdsNumber_of_field (.inr (Parse.isLabel_of_labelKind? hlabel))
    have hothers := htail.every_copied fun token htoken => hwords (by simp [htoken])
    refine .intro (copied_of_kind rfl) ?_
    refine List.forall_mem_cons.2 ⟨every_leaf (copied_of_kind hkind), ?_⟩
    exact List.forall_mem_cons.2 ⟨every_leaf (copied_of_kind htype), hothers⟩
  | map _ htail =>
    have hothers := htail.every_copied fun token htoken => hwords (by simp [htoken])
    refine .intro (copied_of_kind rfl) ?_
    refine List.forall_mem_cons.2 ⟨every_leaf (copied_of_kind rfl), ?_⟩
    exact List.forall_mem_cons.2 ⟨every_leaf (copied_of_kind rfl), hothers⟩
  | constant h _ _ hoptions _ =>
    simp only [spells_cons, spells_nil, and_true] at h
    refine .intro (copied_of_kind rfl) ?_
    refine List.forall_mem_cons.2 ⟨every_leaf (copied_of_kind rfl), ?_⟩
    refine List.forall_mem_cons.2 ⟨every_leaf ?_, hoptions.every every_copied_setting⟩
    exact copied_of_admits (hwords (by simp)) h.2.2 (by simp)
  | reservedNames _ h =>
    refine .intro (copied_of_kind rfl) (h.forall fun hname => ?_).2
    cases hname
    exact every_leaf (copied_of_kind rfl)
  | reservedRanges _ _ h =>
    have hothers := List.Subset.trans (List.subset_cons_self _ _) hwords
    refine .intro (copied_of_kind rfl) (h.forall_mem fun hpart hrange => ?_)
    exact hrange.every_copied (List.Subset.trans hpart hothers)
  | method h _ => exact h.every_copied

theorem Opening.every_copied {statement : Statement} {frame : Frame}
    (h : Opening statement words frame) : Every (Copied tokens) frame.node := by
  cases h with
  | @named _ _ kind _ _ _ _ hblock _ =>
    have hkind : kind.holdsNumber = false := by
      cases statement <;> cases hblock <;> rfl
    exact every_copied_of_kinds (by simpa [leaf, Kind.holdsNumber] using hkind) (by simp [leaf])
  | method h _ => exact h.every_copied

/-- **The numbers of a tree are words of its tokens**, and integers. -/
theorem gives_copied (tokens : List Token) : Gives tokens (Copied tokens) where
  root := copied_of_kind rfl
  line := Line.every_copied
  comment h := by
    cases h
    exact every_copied_of_kinds (by simp [Parse.commentNode, leaf, Kind.holdsNumber])
      (by simp [Parse.commentNode, leaf])
  opening _ h := h.every_copied
  push _ _ h := h

end Grammar

/-! ### Integers of a text -/

/-- **Integers are numbers, but for a sign inside them.** A word with the value of an integer is
written as a number, and its token is of the kind of numbers, if and only if no sign stands behind
the digits that tell its base. So where a statement of a text takes a token for the number of a
field, a constant or a reservation, and where a tree holds such a number, the token is of the kind
of numbers under the same condition. -/
theorem integers_are_numbers (lexeme source : String) :
    ((Lexeme.integer? lexeme).isSome = true →
      (Lexeme.isNumber lexeme = true ↔ Lexeme.hasInnerSign lexeme = false) ∧
        (TokenKind.ofLexeme lexeme = .number ↔ Lexeme.hasInnerSign lexeme = false)) ∧
    (∀ (tape after : Tape) terminal token, tape.tokens = tokenize source →
      terminal ∈ Terminal.numerals → Parse.expect terminal tape = .ok token after →
      token.lexeme ≠ "max" →
      (token.kind = .number ↔ Lexeme.hasInnerSign token.lexeme = false)) ∧
    ∀ node, Node.Within (fun _ => true) (Tree.ofSource source).root node →
      node.IsNumeral → ∃ token ∈ tokenize source, token.lexeme = node.value ∧
        (Lexeme.integer? node.value).isSome = true ∧
        (token.kind = .number ↔ Lexeme.hasInnerSign node.value = false) := by
  refine ⟨?_, ?_, ?_⟩
  · intro h
    have hnumber := Lexeme.isNumber_of_integer? h
    exact ⟨by simp [hnumber], TokenKind.ofLexeme_of_integer? h⟩
  · intro tape after terminal token htokens hterminal hexpect hmax
    obtain ⟨hadmits, rest, hrest, -⟩ := Parse.expect_eq_ok hexpect
    have hmem : token ∈ tokenize source := by
      rw [← htokens, Tape.tokens, hrest]
      simp
    have hinteger := (Terminal.integer?_of_admits hterminal hadmits).resolve_right
      fun hword => hmax hword.2
    exact (regular_tokenize source token hmem).kind_of_integer? hinteger
  · intro node hwithin hnumeral
    have hevery := Tree.every_ofTokens (Grammar.gives_copied (tokenize source))
    obtain ⟨token, hmem, hlexeme, hinteger⟩ := (hevery.of_within hwithin).here hnumeral
    have hkind := (regular_tokenize source token hmem).kind_of_integer? hinteger
    rw [hlexeme] at hinteger hkind
    exact ⟨token, hmem, hlexeme, hinteger, hkind⟩

/-- Two fields, the second one with a sign inside its number. -/
def signedNumbers : String := "message M \x7b\nint32 a = 0x1F;\nint32 b = 0+5;\n\x7d"

/-- The node of a field of the message, and the node of its number. -/
theorem within_signedNumbers (name number : String)
    (hfield : ⟨.field, "", [.leaf .scalarType "int32", .leaf .identifier name,
      .leaf .fieldNumber number]⟩ ∈ (Tree.ofSource signedNumbers).root.children.flatMap
        Node.children) :
    Node.Within (fun _ => true) (Tree.ofSource signedNumbers).root (.leaf .fieldNumber number) := by
  obtain ⟨message, hmessage, hmember⟩ := List.mem_flatMap.1 hfield
  exact .child (.child (.child .root hmessage rfl) hmember rfl) (by simp) rfl

/-- The hexadecimal number is of the kind of numbers, as a word, where the statement takes it and
in the tree; the other one is not. -/
theorem integers_are_numbers_signedNumbers :
    TokenKind.ofLexeme "-0x1F" = .number ∧
      (∃ token after, Parse.expect .fieldNumber
          ((Tape.ofTokens (tokenize signedNumbers)).moveTo 7) = .ok token after ∧
        token.kind = .number) ∧
      (∃ token ∈ tokenize signedNumbers, token.lexeme = "0x1F" ∧ token.kind = .number) ∧
      ∃ token ∈ tokenize signedNumbers, token.lexeme = "0+5" ∧ token.kind ≠ .number := by
  refine ⟨?_, ?_, ?_, ?_⟩
  · exact ((integers_are_numbers "-0x1F" signedNumbers).1 (by decide)).2.2 (by decide)
  · have hrest : ((Tape.ofTokens (tokenize signedNumbers)).moveTo 7).rest =
        .ofLexeme ⟨2, 11⟩ "0x1F" :: (tokenize signedNumbers).drop 8 := by decide +kernel
    have hexpect : Parse.expect .fieldNumber ((Tape.ofTokens (tokenize signedNumbers)).moveTo 7) =
        .ok (.ofLexeme ⟨2, 11⟩ "0x1F")
          ((Tape.ofTokens (tokenize signedNumbers)).moveTo 7).advance := by
      have hadmits : Terminal.fieldNumber.admits (.ofLexeme ⟨2, 11⟩ "0x1F") = true := by decide
      simp only [Parse.expect, Parse.check, hrest, hadmits, if_true]
    exact ⟨_, _, hexpect, ((integers_are_numbers "0x1F" signedNumbers).2.1 _ _ .fieldNumber _
      (Tape.tokens_moveTo _ 7) (by decide) hexpect (by decide)).2 (by decide)⟩
  · obtain ⟨token, hmem, hlexeme, -, hkind⟩ := (integers_are_numbers "0x1F" signedNumbers).2.2
      (.leaf .fieldNumber "0x1F") (within_signedNumbers "a" "0x1F" (by decide +kernel)) (.inl rfl)
    exact ⟨token, hmem, hlexeme, hkind.2 (by decide)⟩
  · obtain ⟨token, hmem, hlexeme, -, hkind⟩ := (integers_are_numbers "0+5" signedNumbers).2.2
      (.leaf .fieldNumber "0+5") (within_signedNumbers "b" "0+5" (by decide +kernel)) (.inl rfl)
    exact ⟨token, hmem, hlexeme, fun hnumber => absurd (hkind.1 hnumber) (by decide)⟩

/-- **Not every integer is a number**: a sign behind a leading zero is read, and such a word is
accepted as the number of a field. -/
theorem integer_with_inner_sign :
    ¬(∀ lexeme, (Lexeme.integer? lexeme).isSome = true → Lexeme.isNumber lexeme = true) ∧
      (Tree.ofSource signedNumbers).errors = [] ∧
      ∀ token ∈ tokenize signedNumbers, token.lexeme = "0+5" → token.kind = .text := by
  refine ⟨fun h => absurd (h "0-5" (by decide)) (by decide), by decide +kernel, ?_⟩
  decide +kernel

end ProtoSchema
