import ProtoSchema.Proofs.Coupling

/-!
# Statements on one line

The statements about the file, options and reserved names and numbers have neither a body nor a list
of options in brackets. So they stand on one line, and the first semicolon that they come to ends
them.

* `Statement.isDeclaration`: these statements.
* `Grammar.Ended`: words on one line up to their first semicolon, which is the last of them.
* `Grammar.Line.ended`: the words of such a statement; `Statement.ended_of_start` is the same for
  what is read, wherever reading starts.
-/

namespace ProtoSchema

/-- The statements that end with a semicolon on the line where they start. -/
def Statement.isDeclaration : Statement → Bool
  | version | importFile | package | option | reserved _ => true
  | _ => false

namespace Grammar

variable {words others : List Token} {node : Node}

/-- Words of a text that neither break the line nor are a semicolon. -/
def Flat (words : List Token) : Prop :=
  ∀ token ∈ words, token.Regular → token.isLineEnd = false ∧ token.isMark .semicolon = false

theorem Flat.append (h : Flat words) (hothers : Flat others) : Flat (words ++ others) :=
  List.forall_mem_append.2 ⟨h, hothers⟩

/-- Words on one line up to their first semicolon. -/
def Ended (words : List Token) : Prop :=
  ∃ front semicolon, words = front ++ [semicolon] ∧ Flat front ∧
    semicolon.isMark .semicolon = true

namespace Ended

theorem of_mark {semicolon : Token} (h : Spells [.mark .semicolon] [semicolon]) :
    Ended [semicolon] :=
  ⟨[], semicolon, rfl, by simp [Flat], by simpa using h⟩

/-- Flat words may stand in front. -/
theorem prepend (h : Ended words) (hothers : Flat others) : Ended (others ++ words) := by
  obtain ⟨front, semicolon, rfl, hfront, hmark⟩ := h
  exact ⟨others ++ front, semicolon, (List.append_assoc ..).symm, hothers.append hfront, hmark⟩

/-- None of the words breaks the line. -/
theorem isLineEnd_of_mem (h : Ended words) {token : Token} (hmem : token ∈ words)
    (hregular : token.Regular) : token.isLineEnd = false := by
  obtain ⟨front, semicolon, rfl, hfront, hmark⟩ := h
  rcases List.mem_append.1 hmem with hmem | hmem
  · exact (hfront token hmem hregular).1
  · obtain rfl := List.mem_singleton.1 hmem
    exact hregular.isLineEnd_of_isMark hmark

end Ended

/-! ### Parts of statements -/

theorem Spells.flat {terminals : List Terminal} (h : Spells terminals words)
    (hterminals : ∀ terminal ∈ terminals,
      terminal ≠ .word "\n" ∧ terminal.hasMark .semicolon = false) : Flat words := by
  induction h with
  | nil => simp [Flat]
  | cons hadmits _ ih =>
    rw [List.forall_mem_cons] at hterminals
    obtain ⟨⟨hbreak, hmark⟩, hrest⟩ := hterminals
    refine List.forall_mem_cons.2 ⟨fun hregular => ?_, ih hrest⟩
    exact ⟨hregular.isLineEnd_of_admits hadmits hbreak,
      Terminal.isMark_of_admits hmark hregular hadmits⟩

/-- Flat words in front of a semicolon. -/
theorem Spells.ended (front : List Terminal) (h : Spells (front ++ [.mark .semicolon]) words)
    (hfront : ∀ terminal ∈ front,
      terminal ≠ .word "\n" ∧ terminal.hasMark .semicolon = false) : Ended words := by
  induction front generalizing words with
  | nil =>
    obtain ⟨semicolon, _, hmark, hnil, rfl⟩ := List.forall₂_cons_left_iff.1 h
    obtain rfl := List.forall₂_nil_left_iff.1 hnil
    exact .of_mark (by simpa using hmark)
  | cons terminal rest ih =>
    obtain ⟨token, others, hadmits, hothers, rfl⟩ := List.forall₂_cons_left_iff.1 h
    rw [List.forall_mem_cons] at hfront
    have hfirst : Spells [terminal] [token] := by simp [hadmits]
    exact (ih hothers hfront.2).prepend (hfirst.flat (by simpa using hfront.1))

theorem OptionName.flat {text : String} (h : OptionName words text) : Flat words := by
  cases h with
  | path h => exact h.flat (by decide)
  | extension h => exact h.flat (by decide)
  | @member _ _ _ path h hpath =>
    have hreference : Lexeme.isReference path.lexeme = true := by
      rw [Lexeme.isReference, hpath, Bool.or_true]
    have hlast : Flat [path] := by
      refine List.forall_mem_singleton.2 fun hregular => ?_
      exact ⟨(hregular.inner_of_isReference hreference).lineEnd,
        Token.isMark_of_isReference hreference _⟩
    exact (h.flat (by decide)).append hlast

theorem Assignment.flat (h : Assignment false words node) : Flat words := by
  cases h with
  | intro hbefore hname hbetween hequals hafter hvalue =>
    obtain rfl : _ = [] := hbefore
    obtain rfl : _ = [] := hbetween
    obtain rfl : _ = [] := hafter
    exact hname.flat.append ((hequals.flat (by decide)).append (hvalue.flat (by decide)))

theorem ReservedName.flat (h : ReservedName words node) : Flat words := by
  cases h with
  | intro h => exact h.flat (by decide)

theorem ReservedRange.flat {domain : NumberDomain} (h : ReservedRange domain words node) :
    Flat words := by
  cases h with
  | single h _ => exact h.flat (by decide)
  | between h _ _ _ => exact h.flat (by decide)
  | toMax h _ => exact h.flat (by decide)

/-- A row of flat items ends with the semicolon behind the last of them. -/
theorem Separated.ended {item : List Token → Node → Prop} {nodes : List Node}
    (h : Separated item .semicolon words nodes)
    (hitem : ∀ {words node}, item words node → Flat words) : Ended words := by
  induction h with
  | last h hmark => exact (Ended.of_mark hmark).prepend (hitem h)
  | more h hcomma _ ih =>
    have hrest := ih.prepend (hcomma.flat (by decide))
    exact hrest.prepend (hitem h)

/-! ### Whole statements -/

/-- **A declaration stands on one line and ends with its first semicolon.** -/
theorem Line.ended {statement : Statement} (h : Line statement words node)
    (hdeclaration : statement.isDeclaration = true) : Ended words := by
  cases h with
  | version h _ => exact Spells.ended [.word "syntax", .mark .equals, .versionText] h (by decide)
  | plainImport h => exact Spells.ended [.word "import", .importPath] h (by decide)
  | @qualifiedImport _ modifier _ _ h hmodifier hpath =>
    obtain ⟨found, hfound⟩ := Option.isSome_iff_exists.1 hmodifier
    have htext : found.text = modifier.lexeme := by simpa using List.find?_some hfound
    have hword : Spells [.word found.text] [modifier] := by simp [htext]
    have hfront : Flat [modifier] := hword.flat (by cases found <;> decide)
    have htail := (Spells.ended [.importPath] hpath (by decide)).prepend hfront
    exact htail.prepend (h.flat (by decide))
  | package h => exact Spells.ended [.word "package", .packageName] h (by decide)
  | option hkeyword h hend =>
    have htail := (Ended.of_mark hend).prepend h.flat
    exact htail.prepend (hkeyword.flat (by decide))
  | reservedNames hkeyword h =>
    exact (h.ended ReservedName.flat).prepend (hkeyword.flat (by decide))
  | reservedRanges hkeyword _ h =>
    exact (h.ended ReservedRange.flat).prepend (hkeyword.flat (by decide))
  | field | labelledField | map | constant | method | shortComment | blockComment =>
    cases hdeclaration

end Grammar

open Parse

/-- **A declaration is read up to its first semicolon**, wherever reading starts. -/
theorem Statement.ended_of_start {statement : Statement} {tape after : Tape} {reading : Reading}
    (hdeclaration : statement.isDeclaration = true)
    (hstart : statement.start tape = .ok reading after) :
    ∃ node words, reading = .whole node ∧ tape.rest = words ++ after.rest ∧
      after.seen = words.reverse ++ tape.seen ∧ Grammar.Ended words := by
  obtain ⟨words, htape, hafter, hyields⟩ := exists_yields hstart
  have hline : ∃ node, reading = .whole node ∧ Grammar.Line statement words node := by
    cases statement with
    | version =>
      obtain ⟨node, hwhole, hnode⟩ := Grammar.whole_of_yields hyields
      exact ⟨node, hwhole, Grammar.version_of_yields hnode⟩
    | importFile =>
      obtain ⟨node, hwhole, hnode⟩ := Grammar.whole_of_yields hyields
      exact ⟨node, hwhole, Grammar.importFile_of_yields hnode⟩
    | package =>
      obtain ⟨node, hwhole, hnode⟩ := Grammar.whole_of_yields hyields
      exact ⟨node, hwhole, Grammar.package_of_yields hnode⟩
    | option =>
      obtain ⟨node, hwhole, hnode⟩ := Grammar.whole_of_yields hyields
      exact ⟨node, hwhole, Grammar.option_of_yields hnode⟩
    | reserved domain =>
      obtain ⟨node, hwhole, hnode⟩ := Grammar.whole_of_yields hyields
      exact ⟨node, hwhole, Grammar.reserved_of_yields hnode⟩
    | _ => cases hdeclaration
  obtain ⟨node, hwhole, hnode⟩ := hline
  exact ⟨node, words, hwhole, congrArg Tape.rest htape, congrArg Tape.seen hafter,
    hnode.ended hdeclaration⟩

end ProtoSchema
