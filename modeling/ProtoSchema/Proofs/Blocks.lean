import ProtoSchema.Proofs.Accept
import ProtoSchema.Proofs.Derive
import ProtoSchema.Statement.Body

/-!
# Bodies are read by the grammar

Bodies are read with the open blocks on a stack, while the grammar nests them. What a stack still
needs is a row of members and a closing brace for each block on it, from the topmost down.

* `Frame.run_of_members`: members of the grammar are read without a diagnostic and added to the
  block on top.
* `Grammar.Finishes`: the tokens that close every block of a stack.
* `Frame.finishes_of_run`: if reading to the end of the stack meets no error, the tokens it passed
  close it.
-/

namespace ProtoSchema

theorem Node.append_append (node : Node) (first second : List Node) :
    (node.append first).append second = node.append (first ++ second) := by
  simp [append]

@[simp] theorem Node.append_nil (node : Node) : node.append [] = node := by
  cases node
  simp [append]

namespace Frame

/-- The block with more members. -/
def extend (frame : Frame) (members : List Node) : Frame :=
  { frame with node := frame.node.append members }

@[simp] theorem extend_nil (frame : Frame) : frame.extend [] = frame := by
  simp [extend]

theorem extend_add (frame : Frame) (member : Node) (members : List Node) :
    (frame.add member).extend members = frame.extend (member :: members) := by
  simp [extend, add, Node.push, Node.append_append]

@[simp] theorem scope_extend (frame : Frame) (members : List Node) :
    (frame.extend members).scope = frame.scope := rfl

@[simp] theorem scope_add (frame : Frame) (member : Node) :
    (frame.add member).scope = frame.scope := rfl

end Frame

namespace Grammar

open Parse

variable {scope : Scope} {statement : Statement} {words rest : List Token} {node : Node}
  {nodes : List Node} {token : Token}

/-! ### The first word of a statement -/

/-- The tokens start a statement of a scope. -/
def Starts (scope : Scope) (statement : Statement) (words : List Token) : Prop :=
  ∃ first others, words = first :: others ∧ scope.statement? first.lexeme = some statement

theorem starts_of_word {word : String} {first : Token} {others : List Token}
    (hscope : statement ∈ scope.members)
    (hopener : statement ∈ scope.members → (word, statement) ∈ scope.openers)
    (hword : (Terminal.word word).admits first = true) :
    Starts scope statement (first :: others) := by
  rw [admits_word] at hword
  exact ⟨first, others, rfl, by rw [hword]; exact Scope.statement?_of_mem_openers (hopener hscope)⟩

theorem Signature.exists_cons (h : Signature words node) :
    ∃ first others, words = first :: others ∧ first.lexeme = "rpc" := by
  cases h with
  | intro h _ _ _ =>
    simp only [spells_cons, admits_word] at h
    exact ⟨_, _, rfl, h.1⟩

theorem starts_of_signature (hscope : .method ∈ scope.members) (h : Signature words node)
    (more : List Token) : Starts scope .method (words ++ more) := by
  obtain ⟨first, others, rfl, hfirst⟩ := h.exists_cons
  have hword : (Terminal.word "rpc").admits first = true := admits_word.2 hfirst
  exact starts_of_word hscope (by cases scope <;> decide) hword

/-- **A statement of a scope starts with a word that tells it.** -/
theorem Line.starts (h : Line statement words node) (hscope : statement ∈ scope.members) :
    Starts scope statement words := by
  cases h with
  | version h _ | plainImport h | package h | map h _ =>
    simp only [spells_cons] at h
    exact starts_of_word hscope (by cases scope <;> decide) h.1
  | qualifiedImport h _ _ | option h _ _ =>
    simp only [spells_cons] at h
    exact starts_of_word hscope (by cases scope <;> decide) h.1
  | @reservedNames domain _ _ _ h _ | @reservedRanges domain _ _ _ _ h _ _ =>
    simp only [spells_cons] at h
    exact starts_of_word hscope (by cases scope <;> cases domain <;> decide) h.1
  | field htype hbars _ =>
    simp only [spells_cons] at htype
    exact ⟨_, _, rfl, Scope.statement?_of_type hscope (Bool.and_eq_true_iff.1 htype.1).2 hbars⟩
  | @labelledField label _ kind _ _ hlabel _ _ =>
    refine ⟨_, _, rfl, Scope.statement?_of_mem_openers ?_⟩
    have hall : ∀ entry ∈ [("repeated", Node.Kind.repeated), ("optional", .optional)],
        (entry.1, .field true) ∈ scope.openers := by
      cases scope <;> revert hscope <;> decide
    obtain ⟨before, after, hentries, -⟩ := List.lookup_eq_some_iff.1 hlabel
    exact hall (label.lexeme, kind) (by rw [hentries]; simp)
  | constant h hbars _ _ _ =>
    simp only [spells_cons] at h
    exact ⟨_, _, rfl, Scope.statement?_of_constant hscope (Bool.and_eq_true_iff.1 h.1).2 hbars⟩
  | method h _ => exact starts_of_signature hscope h _
  | shortComment hopener _ | blockComment hopener _ _ _ =>
    exact ⟨_, _, rfl, Scope.statement?_of_opensBlockComment hopener⟩

theorem Opening.starts {frame : Frame} (h : Opening statement words frame)
    (hscope : statement ∈ scope.members) : Starts scope statement words := by
  cases h with
  | named hblock h =>
    simp only [spells_cons] at h
    refine starts_of_word hscope ?_ h.1
    cases statement <;> cases hblock <;> cases scope <;> decide
  | method h _ => exact starts_of_signature hscope h _

theorem LineComment.starts (h : LineComment words node) (scope : Scope) :
    Starts scope (.comment .line) words := by
  cases h with
  | intro hopener _ => exact ⟨_, _, rfl, Scope.statement?_of_opensLineComment hopener⟩

/-- A word that starts a statement is no line break and no mark. -/
theorem statement?_bars (scope : Scope) :
    scope.statement? "\n" = none ∧ ∀ sign : Punctuation, scope.statement? sign.text = none := by
  refine ⟨by cases scope <;> decide, fun sign => ?_⟩
  cases scope <;> cases sign <;> decide

theorem isLineEnd_of_statement? (hregular : token.Regular)
    (h : scope.statement? token.lexeme = some statement) : token.isLineEnd = false := by
  rw [← Bool.not_eq_true]
  intro hend
  rw [hregular.lexeme_of_isLineEnd hend, (statement?_bars scope).1] at h
  cases h

theorem isMark_of_statement? (h : scope.statement? token.lexeme = some statement)
    (sign : Punctuation) : token.isMark sign = false := by
  rw [← Bool.not_eq_true]
  intro hmark
  rw [beq_iff_eq.1 hmark, (statement?_bars scope).2] at h
  cases h

theorem Starts.next_isMark (h : Starts scope statement words) (sign : Punctuation) :
    Next (·.isMark sign = false) (words ++ rest) := by
  obtain ⟨first, others, rfl, hfirst⟩ := h
  simpa using isMark_of_statement? hfirst sign

/-- No statement starts with a semicolon. -/
theorem Members.next (h : Members scope words nodes) (hregular : ∀ token ∈ words, token.Regular)
    (hrest : Next (·.isMark .semicolon = false) rest) :
    Next (·.isMark .semicolon = false) (words ++ rest) := by
  cases h with
  | nil => exact hrest
  | blank htoken _ =>
    rw [List.cons_append, next_cons, Token.isMark,
      (hregular _ List.mem_cons_self).lexeme_of_isLineEnd htoken]
    decide
  | comment h _ _ =>
    rw [List.append_assoc]
    exact (h.starts scope).next_isMark _
  | line hscope h _ =>
    rw [List.append_assoc]
    exact (h.starts hscope).next_isMark _
  | block hscope hopening _ _ _ _ =>
    rw [List.append_assoc]
    exact (hopening.starts hscope).next_isMark _

end Grammar

namespace Frame

open Grammar Parse

variable {top frame : Frame} {below : List Frame} {errors : List Diagnostic} {tape : Tape}
  {statement : Statement} {seen words rest : List Token} {node : Node} {nodes : List Node}
  {token : Token}

/-! ### Members of the grammar are read -/

theorem skipBreaks_of_next (h : Next (·.isLineEnd = false) rest) :
    Tape.skipBreaks ⟨seen, rest⟩ = ⟨seen, rest⟩ :=
  @skipWhile_append seen [] rest Token.isLineEnd (by simp) h

theorem skipBreaks_cons (h : token.isLineEnd = true) :
    Tape.skipBreaks ⟨seen, token :: rest⟩ = Tape.skipBreaks ⟨token :: seen, rest⟩ := by
  simp [Tape.skipBreaks, Tape.skipWhile, h]

theorem skipBreaks_of_starts (h : Starts top.scope statement words)
    (hregular : ∀ token ∈ words, token.Regular) :
    Tape.skipBreaks ⟨seen, words ++ rest⟩ = ⟨seen, words ++ rest⟩ := by
  obtain ⟨first, others, rfl, hfirst⟩ := h
  refine skipBreaks_of_next ?_
  rw [List.cons_append, next_cons]
  exact isLineEnd_of_statement? (hregular first List.mem_cons_self) hfirst

/-- Goes on after a statement: with the next member, or with the body of a block. -/
def proceed (top : Frame) (below : List Frame) (errors : List Diagnostic) : Reading → Tape → Outcome
  | .whole node, tape => run (top.add node) below errors tape
  | .opened frame, tape => run frame (top :: below) errors tape

/-- One step of reading a body, by the next token that is no line break. -/
theorem run_eq (top : Frame) (below : List Frame) (errors : List Diagnostic) (tape : Tape) :
    run top below errors tape =
      match tape.skipBreaks.peek? with
      | none => ⟨none, errors ++ [⟨.unterminatedBody top.scope, top.opener⟩], tape.skipBreaks⟩
      | some token =>
        if token.isMark .closeBrace then
          match below with
          | [] => ⟨some top.node, errors, top.scope.afterBody tape.skipBreaks.advance⟩
          | next :: others =>
            run (next.add top.node) others errors (top.scope.afterBody tape.skipBreaks.advance)
        else match top.scope.statement? token.lexeme with
          | none =>
            run top below (errors ++ [⟨top.scope.refusal, token⟩]) tape.skipBreaks.skipLine
          | some statement =>
            match statement.start tape.skipBreaks with
            | .ok reading after => proceed top below errors reading after
            | .error diagnostic after =>
              if diagnostic.isFatal then ⟨none, errors ++ [diagnostic], after⟩
              else run top below (errors ++ [diagnostic]) after.skipLine := by
  fun_cases run top below errors tape with
  | case1 below htoken => simp only [htoken]
  | case2 token htoken hcloser after => simp only [htoken, if_pos hcloser, after]
  | case3 token htoken hcloser after next others => simp only [htoken, if_pos hcloser, after]
  | case4 below token htoken hcloser hstatement => simp only [htoken, if_neg hcloser, hstatement]
  | case5 below token htoken hcloser statement hstatement node after hstart =>
    simp only [htoken, if_neg hcloser, hstatement, hstart, proceed]
  | case6 below token htoken hcloser statement hstatement frame after hstart =>
    simp only [htoken, if_neg hcloser, hstatement, hstart, proceed]
  | case7 below token htoken hcloser statement hstatement diagnostic after hstart hfatal =>
    simp only [htoken, if_neg hcloser, hstatement, hstart, if_pos hfatal]
  | case8 below token htoken hcloser statement hstatement diagnostic after hstart hfatal =>
    simp only [htoken, if_neg hcloser, hstatement, hstart, if_neg hfatal]

/-- Line breaks before a member do not count. -/
theorem run_congr {tape' : Tape} (h : tape.skipBreaks = tape'.skipBreaks) :
    run top below errors tape = run top below errors tape' := by
  rw [run_eq, h, ← run_eq]

theorem run_of_starts (h : Starts top.scope statement words)
    (hregular : ∀ token ∈ words, token.Regular) {reading : Reading}
    (hread : statement.start.Yields seen words reading rest) :
    run top below errors ⟨seen, words ++ rest⟩ =
      proceed top below errors reading ⟨words.reverse ++ seen, rest⟩ := by
  have hskip := @skipBreaks_of_starts top statement seen words rest h hregular
  obtain ⟨first, others, rfl, hfirst⟩ := h
  have hmark := isMark_of_statement? hfirst .closeBrace
  have hpeek : Tape.peek? ⟨seen, first :: others ++ rest⟩ = some first := rfl
  rw [run_eq, hskip, hpeek]
  simp only [hmark, Bool.false_eq_true, if_false, hfirst]
  rw [hread]

theorem run_of_close {closer : Token} (hcloser : closer.isMark .closeBrace = true)
    (hregular : closer.Regular) :
    run top below errors ⟨seen, closer :: rest⟩ =
      match below with
      | [] => ⟨some top.node, errors, top.scope.afterBody ⟨closer :: seen, rest⟩⟩
      | next :: others =>
        run (next.add top.node) others errors (top.scope.afterBody ⟨closer :: seen, rest⟩) := by
  have hend : closer.isLineEnd = false :=
    hregular.isLineEnd_of_admits (admits_mark.trans hcloser) (by decide)
  have hpeek : Tape.peek? ⟨seen, closer :: rest⟩ = some closer := rfl
  rw [run_eq, skipBreaks_of_next (by simpa using hend), hpeek]
  simp only [hcloser, if_true]
  rfl

theorem afterBody_of_trailer {scope : Scope} (h : Trailer scope words)
    (hrest : Next (·.isMark .semicolon = false) rest) :
    scope.afterBody ⟨seen, words ++ rest⟩ = ⟨words.reverse ++ seen, rest⟩ := by
  unfold Scope.afterBody
  cases h with
  | none =>
    split
    · exact congrArg Prod.snd (takeIf_of_next hrest)
    · rfl
  | semicolon h =>
    simp only [spells_cons, spells_nil, and_true, admits_mark] at h
    rw [if_pos rfl]
    exact congrArg Prod.snd (takeIf_cons h)

/-- **Members of the grammar are read** and added to the block on top of the stack. -/
theorem run_of_members {scope : Scope} (h : Members scope words nodes)
    (hregular : ∀ token ∈ words, token.Regular) (hscope : top.scope = scope)
    (hrest : Next (·.isMark .semicolon = false) rest) :
    run top below errors ⟨seen, words ++ rest⟩ =
      run (top.extend nodes) below errors ⟨words.reverse ++ seen, rest⟩ := by
  induction h generalizing top below seen rest with
  | nil => simp
  | blank htoken _ ih =>
    rw [List.forall_mem_cons] at hregular
    rw [List.cons_append, run_congr (skipBreaks_cons htoken), ih hregular.2 hscope hrest,
      List.reverse_cons, List.append_assoc]
    rfl
  | @comment _ words more token node _ h htoken hmore ih =>
    subst hscope
    rw [List.forall_mem_append] at hregular
    have hread := @yields_of_lineComment seen words (token :: more ++ rest) node h
      (by simpa using htoken)
    rw [List.append_assoc, run_of_starts (h.starts _) hregular.1 hread, proceed,
      ih hregular.2 (scope_add _ _) hrest, extend_add, List.reverse_append, List.append_assoc]
  | @line _ statement words more node _ hmember h _ ih =>
    subst hscope
    rw [List.forall_mem_append] at hregular
    have hread := @yields_of_line seen words (more ++ rest) node statement h hregular.1
    rw [List.append_assoc, run_of_starts (h.starts hmember) hregular.1 hread, proceed,
      ih hregular.2 (scope_add _ _) hrest, extend_add, List.reverse_append, List.append_assoc]
  | @block _ statement opening body trailer more frame closer members nodes hmember hopening hbody
      hcloser htrailer hmore ihbody ihmore =>
    subst hscope
    simp only [spells_cons, spells_nil, and_true, admits_mark] at hcloser
    simp only [List.forall_mem_append, List.forall_mem_cons] at hregular
    obtain ⟨hregularOpening, hregularBody, hregularCloser, -, hregularMore⟩ := hregular
    have hread := @yields_of_opening seen opening (body ++ closer :: (trailer ++ more) ++ rest)
      statement frame hopening
    have hnext := Token.isMark_eq_false hcloser (by decide : Punctuation.closeBrace ≠ .semicolon)
    -- the body, its brace and the semicolon after it, and then the members that follow the block
    rw [List.append_assoc, run_of_starts (hopening.starts hmember) hregularOpening hread, proceed,
      List.append_assoc, ihbody hregularBody rfl (by simpa using hnext), List.cons_append,
      run_of_close hcloser hregularCloser]
    simp only [scope_extend]
    rw [List.append_assoc, afterBody_of_trailer htrailer (hmore.next hregularMore hrest),
      ihmore hregularMore (scope_add _ _) hrest, extend_add]
    simp [extend]

end Frame

/-! ### What is read without an error consists of members -/

namespace Grammar

open Parse

variable {scope : Scope} {top next : Frame} {below : List Frame} {words more : List Token}
  {member node : Node} {nodes : List Node}

/-- **What a stack of open blocks still needs**: the other members and the closing brace of the
block on top, and then, with this block as a member of the next one, the same for those below. -/
inductive Finishes : Frame → List Frame → List Token → Node → Prop
  | last {top : Frame} {body trailer : List Token} {closer : Token} {members : List Node}
      (hbody : Members top.scope body members) (hcloser : Spells [.mark .closeBrace] [closer])
      (htrailer : Trailer top.scope trailer) :
      Finishes top [] (body ++ closer :: trailer) (top.node.append members)
  | next {top next : Frame} {below : List Frame} {body trailer more : List Token} {closer : Token}
      {members : List Node} {node : Node} (hbody : Members top.scope body members)
      (hcloser : Spells [.mark .closeBrace] [closer]) (htrailer : Trailer top.scope trailer)
      (hmore : Finishes (next.add (top.node.append members)) below more node) :
      Finishes top (next :: below) (body ++ closer :: (trailer ++ more)) node

theorem Members.blanks (hwords : Breaks words) (h : Members scope more nodes) :
    Members scope (words ++ more) nodes := by
  induction words with
  | nil => exact h
  | cons first others ih =>
    rw [Breaks, List.forall_mem_cons] at hwords
    exact .blank hwords.1 (ih hwords.2)

/-- The members of the block on top decide what comes first. -/
theorem Finishes.exists_body (h : Finishes top below words node) :
    ∃ body members closer others, words = body ++ closer :: others ∧
      Members top.scope body members ∧ closer.isMark .closeBrace = true ∧
      ∀ {top' : Frame} {body' : List Token} {members' : List Node}, top'.scope = top.scope →
        top'.node.append members' = top.node.append members → Members top.scope body' members' →
        Finishes top' below (body' ++ closer :: others) node := by
  cases h with
  | @last _ body trailer closer members hbody hcloser htrailer =>
    -- another block with other members finishes in the same way, if it ends as the same node
    refine ⟨body, members, closer, trailer, rfl, hbody, by simpa using hcloser, ?_⟩
    intro top' body' members' hscope hnode hbody'
    rw [← hnode]
    rw [← hscope] at hbody' htrailer
    exact .last hbody' hcloser htrailer
  | @next _ next _ body trailer more closer members _ hbody hcloser htrailer hmore =>
    refine ⟨body, members, closer, trailer ++ more, rfl, hbody, by simpa using hcloser, ?_⟩
    intro top' body' members' hscope hnode hbody'
    rw [← hnode] at hmore
    rw [← hscope] at hbody' htrailer
    exact .next hbody' hcloser htrailer hmore

theorem Finishes.blanks (hwords : Breaks words) (h : Finishes top below more node) :
    Finishes top below (words ++ more) node := by
  obtain ⟨body, members, closer, others, rfl, hbody, -, hbuild⟩ := h.exists_body
  rw [← List.append_assoc]
  exact hbuild rfl rfl (hbody.blanks hwords)

/-- One more member in front. -/
theorem Finishes.cons (h : Finishes (top.add member) below more node)
    (hmember : ∀ {body closer others members}, more = body ++ closer :: others →
      closer.isMark .closeBrace = true → Members top.scope body members →
      Members top.scope (words ++ body) (member :: members)) :
    Finishes top below (words ++ more) node := by
  obtain ⟨body, members, closer, others, rfl, hbody, hcloser, hbuild⟩ := h.exists_body
  rw [← List.append_assoc]
  refine hbuild rfl ?_ (hmember rfl hcloser hbody)
  simp [Frame.add, Node.push, Node.append_append]

/-- One more line in front. -/
theorem Finishes.line {statement : Statement} (hscope : statement ∈ top.scope.members)
    (h : Line statement words member) (hmore : Finishes (top.add member) below more node) :
    Finishes top below (words ++ more) node :=
  hmore.cons fun _ _ hbody => .line hscope h hbody

/-- One more comment in front: what follows it is a line break, since no brace is one. -/
theorem Finishes.comment (h : LineComment words member) (hnext : Next (·.isLineEnd = true) more)
    (hregular : ∀ token ∈ more, token.Regular)
    (hmore : Finishes (top.add member) below more node) :
    Finishes top below (words ++ more) node := by
  refine hmore.cons ?_
  rintro body closer others members rfl hcloser hbody
  cases body with
  | nil =>
    rw [List.nil_append] at hnext hregular
    rw [next_cons, (hregular closer List.mem_cons_self).isLineEnd_of_admits
      (admits_mark.trans hcloser) (by decide)] at hnext
    cases hnext
  | cons first others =>
    rw [List.cons_append, next_cons] at hnext
    exact .comment h hnext hbody

/-- One more block in front. -/
theorem Finishes.block {statement : Statement} {frame : Frame}
    (hscope : statement ∈ top.scope.members) (h : Opening statement words frame)
    (hmore : Finishes frame (top :: below) more node) :
    Finishes top below (words ++ more) node := by
  cases hmore with
  | @next _ _ _ body trailer others closer members _ hbody hcloser htrailer hothers =>
    have hall : Finishes top below ((words ++ (body ++ closer :: trailer)) ++ others) node := by
      refine hothers.cons ?_
      intro _ _ _ _ _ _ hmembers
      simpa using Members.block hscope h hbody hcloser htrailer hmembers
    simpa using hall

end Grammar

namespace Frame

open Grammar Parse

variable {top : Frame} {below : List Frame} {errors : List Diagnostic} {tape : Tape}

/-- Diagnostics are never taken back. -/
theorem errors_prefix_run (top : Frame) (below : List Frame) (errors : List Diagnostic)
    (tape : Tape) : errors <+: (run top below errors tape).errors := by
  fun_induction run top below errors tape with
  | case1 => exact List.prefix_append _ _
  | case2 => exact List.prefix_rfl
  | case3 _ _ _ _ _ _ _ _ _ ih => exact ih
  | case4 _ _ _ _ _ _ _ _ ih => exact (List.prefix_append _ _).trans ih
  | case5 _ _ _ _ _ _ _ _ _ _ _ _ ih => exact ih
  | case6 _ _ _ _ _ _ _ _ _ _ _ _ ih => exact ih
  | case7 => exact List.prefix_append _ _
  | case8 _ _ _ _ _ _ _ _ _ _ _ _ _ ih => exact (List.prefix_append _ _).trans ih

theorem errors_run_ne_nil (diagnostic : Diagnostic) :
    (run top below (errors ++ [diagnostic]) tape).errors ≠ [] := by
  intro h
  have hprefix := errors_prefix_run top below (errors ++ [diagnostic]) tape
  rw [h, List.prefix_nil] at hprefix
  simp at hprefix

theorem exists_breaks (tape : Tape) :
    ∃ breaks, tape.rest = breaks ++ tape.skipBreaks.rest ∧ Breaks breaks :=
  ⟨tape.rest.takeWhile Token.isLineEnd, List.takeWhile_append_dropWhile.symm,
    List.all_eq_true.1 List.all_takeWhile⟩

theorem exists_trailer (scope : Scope) (tape : Tape) :
    ∃ trailer, tape.rest = trailer ++ (scope.afterBody tape).rest ∧ Trailer scope trailer := by
  unfold Scope.afterBody
  split
  · rename_i hscope
    subst hscope
    obtain ⟨seen, rest⟩ := tape
    rcases takeIf_cases (·.isMark .semicolon) rest with ⟨token, others, rfl, htoken⟩ | hnext
    · rw [takeIf_cons htoken]
      exact ⟨[token], rfl, .semicolon (by simpa using htoken)⟩
    · rw [takeIf_of_next hnext]
      exact ⟨[], rfl, .none⟩
  · exact ⟨[], rfl, .none⟩

/-- What a stack needs after a statement: the block on top has one more member, or there is one
more block. -/
def Continues (top : Frame) (below : List Frame) : Reading → List Token → Node → Prop
  | .whole member => Finishes (top.add member) below
  | .opened frame => Finishes frame (top :: below)

/-- The tokens of a statement in front of those that finish the stack after it. -/
theorem finishes_of_read {statement : Statement} {reading : Reading} {words more : List Token}
    {node : Node} (hmember : statement = .comment .line ∨ statement ∈ top.scope.members)
    (h : Read statement words more reading) (hregular : ∀ token ∈ more, token.Regular)
    (hmore : Continues top below reading more node) : Finishes top below (words ++ more) node := by
  cases reading with
  | whole member =>
    rcases h with h | ⟨rfl, h, hnext⟩
    · refine .line (hmember.resolve_left ?_) h hmore
      -- a comment to the end of its line is not a line of the grammar, and it opens nothing
      rintro rfl
      cases h
    · exact .comment h hnext hregular hmore
  | opened frame =>
    refine .block (hmember.resolve_left ?_) h hmore
    rintro rfl
    cases h with
    | named hblock _ => cases hblock

/-- The tokens that reading a statement passed form a production of it. -/
theorem exists_read {scope : Scope} {statement : Statement} {token : Token} {reading : Reading}
    {after : Tape} (hpeek : tape.peek? = some token)
    (hstatement : scope.statement? token.lexeme = some statement)
    (hstart : statement.start tape = .ok reading after) :
    ∃ words, tape.rest = words ++ after.rest ∧ Read statement words after.rest reading := by
  obtain ⟨words, htape, -, hyields⟩ := exists_yields hstart
  have hrest : tape.rest = words ++ after.rest := congrArg Tape.rest htape
  -- the first of these tokens is the one that the statement was chosen by
  refine ⟨words, hrest, read_of_yields hyields (?_ : Next (scope.statement? ·.lexeme = _) words)⟩
  refine @next_left words after.rest _ ?_
  intro first hfirst
  rw [← hrest] at hfirst
  rw [Option.some.inj (hfirst.symm.trans hpeek), hstatement]

theorem read_of_append {statement : Statement} {words more rest : List Token} {reading : Reading}
    (h : Read statement words (more ++ rest) reading) : Read statement words more reading := by
  cases reading with
  | whole node =>
    exact h.imp_right (fun ⟨hstatement, hcomment, hnext⟩ => ⟨hstatement, hcomment, next_left hnext⟩)
  | opened frame => exact h

theorem regular_of_reaches {after : Tape} (h : tape.Reaches after)
    (hregular : ∀ token ∈ tape.rest, token.Regular) : ∀ token ∈ after.rest, token.Regular := by
  obtain ⟨passed, hrest, -⟩ := h
  rw [hrest, List.forall_mem_append] at hregular
  exact hregular.2

theorem rest_of_peek? {token : Token} (h : tape.peek? = some token) :
    tape.rest = token :: tape.advance.rest := by
  unfold Tape.peek? at h
  unfold Tape.advance
  cases hrest : tape.rest with
  | nil => simp [hrest] at h
  | cons first others =>
    rw [hrest, List.head?_cons, Option.some.injEq] at h
    rw [h]

/-- Reading gave a node and passed tokens that stand for it. -/
def Leads (production : List Token → Node → Prop) (tape : Tape) (outcome : Outcome) : Prop :=
  ∃ words node, outcome.node = some node ∧ tape.rest = words ++ outcome.tape.rest ∧
    production words node

theorem leads_skipBreaks {outcome : Outcome}
    (h : Leads (Finishes top below) tape.skipBreaks outcome) :
    Leads (Finishes top below) tape outcome := by
  obtain ⟨words, node, hnode, hrest, hfinishes⟩ := h
  obtain ⟨breaks, htape, hbreaks⟩ := exists_breaks tape
  exact ⟨breaks ++ words, node, hnode, by rw [htape, hrest, List.append_assoc],
    hfinishes.blanks hbreaks⟩

/-- A statement and then what its stack still needs. -/
theorem leads_of_start {statement : Statement} {token : Token} {reading : Reading} {after : Tape}
    {outcome : Outcome} (hregular : ∀ token ∈ after.rest, token.Regular)
    (hpeek : tape.peek? = some token)
    (hstatement : top.scope.statement? token.lexeme = some statement)
    (hstart : statement.start tape = .ok reading after)
    (h : Leads (Continues top below reading) after outcome) :
    Leads (Finishes top below) tape outcome := by
  obtain ⟨more, node, hnode, hmore, hcontinues⟩ := h
  obtain ⟨words, hwords, hread⟩ := exists_read hpeek hstatement hstart
  rw [hmore] at hread hregular
  exact ⟨words ++ more, node, hnode, by rw [hwords, hmore, List.append_assoc],
    finishes_of_read (Scope.mem_members_of_statement? hstatement) (read_of_append hread)
      (List.forall_mem_append.1 hregular).1 hcontinues⟩

/-- **Reading to the end of a stack without an error passes tokens that finish it.** -/
theorem finishes_of_run (top : Frame) (below : List Frame) (errors : List Diagnostic) (tape : Tape)
    (hregular : ∀ token ∈ tape.rest, token.Regular)
    (h : (run top below errors tape).errors = []) :
    Leads (Finishes top below) tape (run top below errors tape) := by
  fun_induction run top below errors tape with
  | case1 => simp at h
  | case2 top errors tape token htoken hcloser after =>
    -- the brace closes the last block of the stack
    obtain ⟨trailer, hafter, htrailer⟩ := exists_trailer top.scope tape.skipBreaks.advance
    refine leads_skipBreaks ⟨[] ++ token :: trailer, top.node.append [], by simp, ?_,
      .last .nil (by simpa using hcloser) htrailer⟩
    rw [rest_of_peek? htoken, hafter]
    rfl
  | case3 top errors tape token htoken hcloser after next others ih =>
    -- the brace closes a block that is a member of the next one
    have hreach := tape.reaches_skipBreaks.trans
      ((Tape.reaches_advance _).trans (reaches_afterBody top.scope _))
    obtain ⟨more, node, hnode, hmore, hfinishes⟩ := ih (regular_of_reaches hreach hregular) h
    obtain ⟨trailer, hafter, htrailer⟩ := exists_trailer top.scope tape.skipBreaks.advance
    refine leads_skipBreaks ⟨[] ++ token :: (trailer ++ more), node, hnode, ?_,
      .next .nil (by simpa using hcloser) htrailer (by simpa using hfinishes)⟩
    rw [rest_of_peek? htoken, hafter, hmore, List.append_assoc]
    simp
  | case4 => exact absurd h (errors_run_ne_nil _)
  | case5 top below errors tape token htoken hcloser statement hstatement node after hstart ih =>
    have hreach := tape.reaches_skipBreaks.trans (Lawful.reaches_of_ok hstart)
    have hafter := regular_of_reaches hreach hregular
    exact leads_skipBreaks (leads_of_start hafter htoken hstatement hstart (ih hafter h))
  | case6 top below errors tape token htoken hcloser statement hstatement frame after hstart ih =>
    have hreach := tape.reaches_skipBreaks.trans (Lawful.reaches_of_ok hstart)
    have hafter := regular_of_reaches hreach hregular
    exact leads_skipBreaks (leads_of_start hafter htoken hstatement hstart (ih hafter h))
  | case7 => simp at h
  | case8 => exact absurd h (errors_run_ne_nil _)

end Frame

end ProtoSchema
