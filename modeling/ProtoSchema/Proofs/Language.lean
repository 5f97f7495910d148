import ProtoSchema.Node.Walk
import ProtoSchema.Proofs.Blocks
import ProtoSchema.Proofs.Lexing
import ProtoSchema.Tree

/-!
# The language of schema files

A file is read without an error exactly if its tokens form a schema of the grammar, and then its
tree holds the nodes that the grammar assigns to them.

* `Tree.readFrom_of_members`: statements of the grammar are read and added to the tree.
* `Tree.schema_of_readFrom`: what is read to the end without an error is a schema.
* `Tree.errors_ofSource_iff`: the two together.
-/

namespace ProtoSchema

open Grammar Parse

/-- A word that starts a statement of a file is of a kind that names belong to. -/
theorem isWord_of_statement? {token : Token} {statement : Statement} (hregular : token.Regular)
    (h : Scope.file.statement? token.lexeme = some statement) : token.isWord = true := by
  have hnumber : Lexeme.isNumber token.lexeme = false := by
    rcases Scope.statement?_cases h with ⟨hopens, -⟩ | ⟨hopens, -⟩ | hopener | ⟨-, himplicit⟩
    · exact Lexeme.isNumber_of_slash hopens
    · exact Lexeme.isNumber_of_slash hopens
    · have hall : ∀ opener ∈ Scope.file.openers, Lexeme.isNumber opener.1 = false := by decide
      exact hall (token.lexeme, statement) hopener
    · cases himplicit
  have hmark : Lexeme.isMark token.lexeme = false := by
    rw [← Bool.not_eq_true, Lexeme.isMark]
    split
    · rename_i c hlexeme
      rw [isPunctuation_iff]
      rintro ⟨mark, rfl⟩
      have htext : token.lexeme = mark.text := by
        rw [Punctuation.text_eq]
        exact String.toList_injective (by simpa using hlexeme)
      rw [htext, (statement?_bars .file).2] at h
      cases h
    · simp
  rcases hregular with ⟨-, hlexeme⟩ | hkind
  · rw [hlexeme, (statement?_bars .file).1] at h
    cases h
  · rw [Token.isWord, hkind, TokenKind.ofLexeme, hnumber, hmark]
    split <;> rfl

namespace Tree

variable {tree : Tree} {tape : Tape} {statement : Statement} {seen words rest : List Token}
  {node : Node} {nodes : List Node}

/-- The tree with more statements. -/
def extend (tree : Tree) (nodes : List Node) : Tree := { tree with root := tree.root.append nodes }

@[simp] theorem extend_nil (tree : Tree) : tree.extend [] = tree := by
  simp [extend]

theorem extend_extend (tree : Tree) (first second : List Node) :
    (tree.extend first).extend second = tree.extend (first ++ second) := by
  simp [extend, Node.append_append]

theorem add_whole (tree : Tree) (node : Node) (after : Tape) :
    tree.add ⟨some node, [], after⟩ = tree.extend [node] := by
  simp [add, extend]

/-- One step of reading a file, by the next token that is no line break. -/
theorem readFrom_eq (tree : Tree) (tape : Tape) :
    readFrom tree tape =
      match tape.skipBreaks.peek? with
      | none => (tree, tape.skipBreaks)
      | some token =>
        if token.isWord then
          match Scope.file.statement? token.lexeme with
          | some statement =>
            readFrom (tree.add (statement.read tape.skipBreaks))
              (statement.read tape.skipBreaks).tape
          | none => readFrom (tree.report Scope.file.refusal token) tape.skipBreaks.skipLine
        else readFrom (tree.report .strayToken token) tape.skipBreaks.skipLine := by
  fun_cases readFrom tree tape with
  | case1 htoken => simp only [htoken]
  | case2 token htoken hword statement hstatement outcome =>
    simp only [htoken, if_pos hword, hstatement, outcome]
  | case3 token htoken hword hstatement => simp only [htoken, if_pos hword, hstatement]
  | case4 token htoken hword => simp only [htoken, if_neg hword]

theorem readFrom_congr {tape' : Tape} (h : tape.skipBreaks = tape'.skipBreaks) :
    readFrom tree tape = readFrom tree tape' := by
  rw [readFrom_eq, h, ← readFrom_eq]

theorem readFrom_of_starts (h : Starts .file statement words)
    (hregular : ∀ token ∈ words, token.Regular) {after : Tape}
    (hread : statement.read ⟨seen, words ++ rest⟩ = ⟨some node, [], after⟩) :
    readFrom tree ⟨seen, words ++ rest⟩ = readFrom (tree.extend [node]) after := by
  obtain ⟨first, others, rfl, hfirst⟩ := h
  have hfirstRegular := hregular first List.mem_cons_self
  have hend := isLineEnd_of_statement? hfirstRegular hfirst
  have hskip : Tape.skipBreaks ⟨seen, first :: others ++ rest⟩ = ⟨seen, first :: others ++ rest⟩ :=
    Frame.skipBreaks_of_next (by simpa using hend)
  have hpeek : Tape.peek? ⟨seen, first :: others ++ rest⟩ = some first := rfl
  rw [readFrom_eq, hskip, hpeek]
  simp only [isWord_of_statement? hfirstRegular hfirst, if_true, hfirst, hread, add_whole]

theorem read_of_yields (h : statement.start.Yields seen words (.whole node) rest) :
    statement.read ⟨seen, words ++ rest⟩ = ⟨some node, [], ⟨words.reverse ++ seen, rest⟩⟩ := by
  rw [Statement.read, h]

/-- **Statements of the grammar are read** and added to the tree. -/
theorem readFrom_of_members (h : Members .file words nodes)
    (hregular : ∀ token ∈ words, token.Regular)
    (hrest : Next (·.isMark .semicolon = false) rest) :
    readFrom tree ⟨seen, words ++ rest⟩ =
      readFrom (tree.extend nodes) ⟨words.reverse ++ seen, rest⟩ := by
  generalize hscope : Scope.file = scope at h
  induction h generalizing tree seen with
  | nil => simp
  | blank htoken _ ih =>
    rw [List.forall_mem_cons] at hregular
    rw [List.cons_append, readFrom_congr (Frame.skipBreaks_cons htoken), ih hregular.2 hscope,
      List.reverse_cons, List.append_assoc]
    rfl
  | @comment _ words more token node _ h htoken _ ih =>
    rw [List.forall_mem_append] at hregular
    have hread := read_of_yields (@yields_of_lineComment seen words (token :: more ++ rest) node h
      (by simpa using htoken))
    rw [List.append_assoc, readFrom_of_starts (h.starts _) hregular.1 hread, ih hregular.2 hscope,
      extend_extend, List.reverse_append, List.append_assoc]
    rfl
  | @line _ statement words more node _ hmember h _ ih =>
    subst hscope
    rw [List.forall_mem_append] at hregular
    have hread := read_of_yields (@yields_of_line seen words (more ++ rest) node statement h
      hregular.1)
    rw [List.append_assoc, readFrom_of_starts (h.starts hmember) hregular.1 hread,
      ih hregular.2 rfl, extend_extend, List.reverse_append, List.append_assoc]
    rfl
  | @block _ statement opening body trailer more frame closer members nodes hmember hopening hbody
      hcloser htrailer hmore _ ih =>
    subst hscope
    simp only [spells_cons, spells_nil, and_true, admits_mark] at hcloser
    simp only [List.forall_mem_append, List.forall_mem_cons] at hregular
    obtain ⟨hregularOpening, hregularBody, hregularCloser, -, hregularMore⟩ := hregular
    have hnext := Token.isMark_eq_false hcloser (by decide : Punctuation.closeBrace ≠ .semicolon)
    -- the body is read on a stack of its own, and its brace ends it
    have hread : statement.read ⟨seen, opening ++ (body ++ closer :: (trailer ++ more) ++ rest)⟩ =
        ⟨some (frame.node.append members), [],
          ⟨(opening ++ (body ++ closer :: (trailer ++ []))).reverse ++ seen, more ++ rest⟩⟩ := by
      rw [Statement.read, yields_of_opening hopening]
      simp only
      rw [List.append_assoc, Frame.run_of_members hbody hregularBody rfl (by simpa using hnext),
        List.cons_append, Frame.run_of_close hcloser hregularCloser]
      simp only [Frame.scope_extend]
      rw [List.append_assoc, Frame.afterBody_of_trailer htrailer (hmore.next hregularMore hrest)]
      simp [Frame.extend]
    rw [List.append_assoc, readFrom_of_starts (hopening.starts hmember) hregularOpening hread,
      ih hregularMore rfl, extend_extend]
    simp

/-- A schema is read to its end without an error. -/
theorem readFrom_of_schema (h : Schema words nodes) (hregular : ∀ token ∈ words, token.Regular) :
    (readFrom tree ⟨seen, words⟩).1 = tree.extend nodes := by
  have hend : ∀ (tree : Tree) (seen : List Token), (readFrom tree ⟨seen, []⟩).1 = tree := by
    intro tree seen
    rw [readFrom_eq]
    rfl
  cases h with
  | closed h =>
    rw [← List.append_nil words, readFrom_of_members h hregular (next_nil _), hend]
  | @commented words last node nodes h hlast =>
    rw [List.forall_mem_append] at hregular
    have hstarts := hlast.starts .file
    have hread := read_of_yields (@yields_of_lineComment (words.reverse ++ seen) last [] node hlast
      (next_nil _))
    have hnext := @Starts.next_isMark _ _ _ [] hstarts .semicolon
    rw [List.append_nil] at hread hnext
    rw [readFrom_of_members h hregular.1 hnext, ← List.append_nil last,
      readFrom_of_starts hstarts hregular.2 (by rw [List.append_nil]; exact hread), hend,
      extend_extend]

/-! ### What is read without an error is a schema -/

end Tree

namespace Grammar

variable {words more : List Token} {member : Node} {nodes : List Node}

theorem Schema.blanks (hwords : Breaks words) (h : Schema more nodes) :
    Schema (words ++ more) nodes := by
  cases h with
  | closed h => exact .closed (h.blanks hwords)
  | commented h hlast =>
    rw [← List.append_assoc]
    exact .commented (h.blanks hwords) hlast

/-- One more statement in front. -/
theorem Schema.cons (h : Schema more nodes)
    (hmember : ∀ {body members}, Members .file body members →
      Members .file (words ++ body) (member :: members)) :
    Schema (words ++ more) (member :: nodes) := by
  cases h with
  | closed h => exact .closed (hmember h)
  | commented h hlast =>
    rw [← List.append_assoc]
    exact .commented (hmember h) hlast

theorem Starts.ne_nil {scope : Scope} {statement : Statement} (h : Starts scope statement words) :
    words ≠ [] := by
  obtain ⟨first, others, rfl, -⟩ := h
  exact List.cons_ne_nil _ _

/-- Where there are no tokens there are no statements. -/
theorem Members.eq_nil {scope : Scope} (h : Members scope words nodes) (hwords : words = []) :
    nodes = [] := by
  cases h with
  | nil => rfl
  | blank _ _ => cases hwords
  | comment h _ _ => simp at hwords
  | line hscope h _ => exact absurd (List.append_eq_nil_iff.1 hwords).1 (h.starts hscope).ne_nil
  | block _ _ _ _ _ _ => simp at hwords

/-- One more comment in front: what follows it is a line break or nothing at all. -/
theorem Schema.comment (h : LineComment words member) (hnext : Next (·.isLineEnd = true) more)
    (hregular : ∀ token ∈ more, token.Regular) (hmore : Schema more nodes) :
    Schema (words ++ more) (member :: nodes) := by
  -- the last comment of a file does not start with a line break
  have hlone : ∀ {last node}, LineComment last node → (∀ token ∈ last, token.Regular) →
      Next (·.isLineEnd = true) last → False := by
    intro last node hlast hregular hnext
    obtain ⟨first, others, rfl, hfirst⟩ := hlast.starts .file
    rw [next_cons, isLineEnd_of_statement? (hregular first List.mem_cons_self) hfirst] at hnext
    cases hnext
  cases hmore with
  | closed hmore =>
    cases more with
    | nil =>
      rw [hmore.eq_nil rfl, List.append_nil]
      exact @Schema.commented [] words member [] .nil h
    | cons first others => exact .closed (.comment h (by simpa using hnext) hmore)
  | @commented body last node _ hmore hlast =>
    cases body with
    | nil => exact (hlone hlast hregular hnext).elim
    | cons first others =>
      rw [← List.append_assoc]
      exact .commented (.comment h (by simpa using hnext) hmore) hlast

end Grammar

namespace Tree

variable {tree : Tree} {tape : Tape}

theorem reaches_read (statement : Statement) (tape : Tape) :
    tape.Reaches (statement.read tape).tape := by
  unfold Statement.read
  split <;> rename_i hstart
  · exact Lawful.reaches_of_ok hstart
  · exact (Lawful.reaches_of_ok hstart).trans (Frame.reaches_run _ _ _ _)
  · unfold Diagnostic.resume
    split
    · exact Lawful.reaches_of_error hstart
    · exact (Lawful.reaches_of_error hstart).trans (Tape.reaches_skipLine _)

/-- Reading a statement of a file without an error passes the tokens of it. -/
theorem schema_of_read {statement : Statement} {token : Token} {nodes : List Node}
    (hregular : ∀ token ∈ tape.rest, token.Regular) (hpeek : tape.peek? = some token)
    (hstatement : Scope.file.statement? token.lexeme = some statement)
    (hread : (statement.read tape).errors = [])
    (hmore : Schema (statement.read tape).tape.rest nodes) :
    ∃ node, Schema tape.rest (node :: nodes) := by
  have hmember := Scope.mem_members_of_statement? hstatement
  unfold Statement.read at hread hmore
  split at hmore <;> rename_i hstart <;> simp only [hstart] at hread
  · rename_i node after
    obtain ⟨words, hwords, hline | ⟨rfl, hcomment, hnext⟩⟩ :=
      Frame.exists_read hpeek hstatement hstart
    · refine ⟨node, ?_⟩
      rw [hwords]
      refine hmore.cons fun hbody => .line (hmember.resolve_left ?_) hline hbody
      rintro rfl
      cases hline
    · refine ⟨node, ?_⟩
      rw [hwords] at hregular ⊢
      exact .comment hcomment hnext (List.forall_mem_append.1 hregular).2 hmore
  · rename_i frame after
    obtain ⟨words, hwords, hopening⟩ := Frame.exists_read hpeek hstatement hstart
    have hafter := Frame.regular_of_reaches (Lawful.reaches_of_ok hstart) hregular
    obtain ⟨body, node, -, hbody, hfinishes⟩ :=
      Frame.finishes_of_run frame [] [] after hafter hread
    refine ⟨node, ?_⟩
    rw [hwords, hbody]
    cases hfinishes with
    | @last _ body trailer closer members hmembers hcloser htrailer =>
      -- the stack has only the one block, and what is left are the statements after it
      rw [← List.append_assoc]
      refine hmore.cons fun hothers => ?_
      have hscope : statement ∈ Scope.file.members := by
        refine hmember.resolve_left ?_
        rintro rfl
        cases hopening with
        | named hblock _ => cases hblock
      simpa using Members.block hscope hopening hmembers hcloser htrailer hothers
  · cases hread

/-- Diagnostics are never taken back. -/
theorem errors_prefix_readFrom (tree : Tree) (tape : Tape) :
    tree.errors <+: (readFrom tree tape).1.errors := by
  fun_induction readFrom tree tape with
  | case1 => exact List.prefix_rfl
  | case2 _ _ _ _ _ _ _ _ ih => exact (List.prefix_append _ _).trans ih
  | case3 _ _ _ _ _ _ ih => exact (List.prefix_append _ _).trans ih
  | case4 _ _ _ _ _ ih => exact (List.prefix_append _ _).trans ih

theorem errors_report_ne_nil (problem : Problem) (token : Token) :
    (readFrom (tree.report problem token) tape).1.errors ≠ [] := by
  intro h
  have hprefix := errors_prefix_readFrom (tree.report problem token) tape
  rw [h, List.prefix_nil] at hprefix
  simp [report] at hprefix

/-- **What is read to the end without an error is a schema.** -/
theorem schema_of_readFrom (tree : Tree) (tape : Tape)
    (hregular : ∀ token ∈ tape.rest, token.Regular) (h : (readFrom tree tape).1.errors = []) :
    ∃ nodes, Schema tape.rest nodes := by
  fun_induction readFrom tree tape with
  | case1 tree tape htoken =>
    obtain ⟨breaks, hrest, hbreaks⟩ := Frame.exists_breaks tape
    have hnil : tape.skipBreaks.rest = [] := by simpa [Tape.peek?] using htoken
    rw [hrest, hnil]
    exact ⟨[], .blanks hbreaks (.closed .nil)⟩
  | case2 tree tape token htoken hword statement hstatement outcome ih =>
    obtain ⟨breaks, hrest, hbreaks⟩ := Frame.exists_breaks tape
    have hskip := Frame.regular_of_reaches tape.reaches_skipBreaks hregular
    have hafter := Frame.regular_of_reaches (reaches_read statement _) hskip
    -- the errors of the statement stay, so there are none
    have hread : outcome.errors = [] := by
      have hprefix := errors_prefix_readFrom (tree.add outcome) outcome.tape
      rw [h, List.prefix_nil] at hprefix
      exact (List.append_eq_nil_iff.1 hprefix).2
    obtain ⟨nodes, hnodes⟩ := ih hafter h
    obtain ⟨node, hschema⟩ := schema_of_read hskip htoken hstatement hread hnodes
    rw [hrest]
    exact ⟨node :: nodes, .blanks hbreaks hschema⟩
  | case3 => exact absurd h (errors_report_ne_nil _ _)
  | case4 => exact absurd h (errors_report_ne_nil _ _)

/-- The tree of a schema holds its nodes. -/
theorem ofSource_of_schema {source : String} {nodes : List Node}
    (h : Schema (tokenize source) nodes) :
    ofSource source = ⟨Node.emptyRoot.append nodes, []⟩ :=
  readFrom_of_schema h (regular_tokenize source)

/-- **A file is read without an error exactly if its tokens form a schema.** -/
theorem errors_ofSource_iff (source : String) :
    (ofSource source).errors = [] ↔ ∃ nodes, Schema (tokenize source) nodes := by
  constructor
  · intro h
    exact schema_of_readFrom {} (.ofTokens (tokenize source)) (regular_tokenize source) h
  · rintro ⟨nodes, hnodes⟩
    rw [ofSource_of_schema hnodes]

/-! ### Types of fields without a label -/

/-- The type of a field that has no label. -/
def bareType? (node : Node) : Option String :=
  if node.kind = .field then
    (node.children.head?.filter (·.kind ∈ [.scalarType, .userType])).map Node.value
  else none

/-- No field without a label, wherever it stands, has a type named like a reserved statement or a
label. -/
def BarsTypes (nodes : List Node) : Prop :=
  ∀ entry ∈ Node.preorderAll 0 nodes, ∀ type ∈ bareType? entry.1, type ∉ typeBars true

instance (nodes : List Node) : Decidable (BarsTypes nodes) :=
  inferInstanceAs (Decidable (∀ entry ∈ Node.preorderAll 0 nodes, _))

/-- A oneof has no reserved statements, so the word is the name of a type there. -/
theorem oneof_field_of_type_reserved :
    ¬ ((ofSource "message M \x7b\noneof o \x7b\nreserved a = 1;\n\x7d\n\x7d").errors = [] ↔
      ∃ nodes, Schema (tokenize "message M \x7b\noneof o \x7b\nreserved a = 1;\n\x7d\n\x7d") nodes ∧
        BarsTypes nodes) := by
  rw [show (ofSource _).errors = [] from by decide +kernel, eq_self, true_iff]
  rintro ⟨nodes, hnodes, hbars⟩
  -- a schema has only one tree, the one that is read
  have htree := congrArg (·.root.children) (ofSource_of_schema hnodes)
  rw [← show _ = nodes from htree] at hbars
  revert hbars
  decide +kernel

end Tree

end ProtoSchema
