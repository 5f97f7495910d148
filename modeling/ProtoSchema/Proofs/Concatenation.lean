import ProtoSchema.Proofs.LineEnds
import ProtoSchema.Proofs.Outcomes
import ProtoSchema.Proofs.Tiling

/-!
# Files compose at line ends

A text that ends with a line break may be followed by any other text. If the first text is read
without a fatal diagnostic and no block comment is open at its end, then the two are read one after
the other: the statements of both in a row, and the diagnostics of both, those of the second text
further down. So nothing that is left unfinished on a line, be it a quote, an escape, a line comment
or a statement, reaches the text after the line.

* `Statement.rest_read`: a statement of a file, with other tokens after it.
* `Tree.exists_readFrom`: whole files, with other tokens after them.
* `tokenize_append`: the tokens of two texts.
* `Tree.ofSource_append`: the two together.
-/

namespace ProtoSchema

open Parse

variable {lines : Nat} {more : List Token} {tape tape' : Tape} {token : Token}

/-! ### The statements of two files -/

/-- **A statement of a file is read alike elsewhere**, unless it ends fatally and there are others
behind it; what it leaves is followed by them. -/
theorem Statement.rest_read {statement : Statement} (h : tape.Shifts lines more tape')
    (hpeek : tape.peek? = some token)
    (hstatement : Scope.file.statement? token.lexeme = some statement)
    (hminor : more ≠ [] → Minor (statement.read tape).errors) :
    (statement.read tape').node = (statement.read tape).node ∧
      (statement.read tape').errors =
        (statement.read tape).errors.map (Diagnostic.moveDown lines) ∧
      (statement.read tape').tape.rest =
        (statement.read tape).tape.rest.map (Token.moveDown lines) ++ more := by
  have hagrees := statement.alike_start h fun hmore => by
    refine rest_start (h.ends hmore) hpeek hstatement fun {diagnostic after} herror => ?_
    have herrors := hminor hmore
    rw [read, herror] at herrors
    exact minor_singleton.1 herrors
  unfold read at hminor ⊢
  generalize statement.start tape' = result' at hagrees ⊢
  generalize statement.start tape = result at hagrees hminor ⊢
  cases hagrees with
  | @ok reading after after' hafter =>
    cases reading with
    | whole node => exact ⟨rfl, rfl, hafter.rest⟩
    | opened frame =>
      have hrun := frame.shifts_run [] [] hafter fun hmore => by
        refine frame.rest_run [] [] (hafter.ends hmore) ?_
        have hsettled := frame.settled_run [] [] after minor_nil
        have herrors : Minor (frame.run [] [] after).errors := hminor hmore
        generalize frame.run [] [] after = outcome at hsettled herrors
        cases hsettled with
        | closed _ => rfl
        | cut _ hfatal _ =>
          rw [minor_append, minor_singleton, hfatal] at herrors
          cases herrors.2
      exact ⟨hrun.node, hrun.errors, hrun.tape.rest⟩
  | @error diagnostic after after' hafter =>
    have hresume : ((diagnostic.moveDown lines).resume after').rest =
        (diagnostic.resume after).rest.map (Token.moveDown lines) ++ more := by
      unfold Diagnostic.resume
      rw [Diagnostic.isFatal_moveDown]
      split
      · exact hafter.rest
      · exact hafter.rest_skipLine
    exact ⟨rfl, rfl, hresume⟩

namespace Tree

/-- What was read before, and after it what a tree holds, a number of lines further down. -/
def join (before : Tree) (lines : Nat) (tree : Tree) : Tree :=
  ⟨before.root.append tree.root.children,
   before.errors ++ tree.errors.map (Diagnostic.moveDown lines)⟩

theorem join_add {before tree : Tree} {outcome outcome' : Outcome}
    (hnode : outcome'.node = outcome.node)
    (herrors : outcome'.errors = outcome.errors.map (Diagnostic.moveDown lines)) :
    (before.join lines tree).add outcome' = before.join lines (tree.add outcome) := by
  simp [join, add, Node.append, hnode, herrors]

theorem join_report (before tree : Tree) (problem : Problem) (token : Token) :
    (before.join lines tree).report problem (token.moveDown lines) =
      before.join lines (tree.report problem token) := by
  simp [join, report, Diagnostic.moveDown]

theorem skipBreaks_append {seen words rest : List Token} (h : Grammar.Breaks words) :
    Tape.skipBreaks ⟨seen, words ++ rest⟩ = Tape.skipBreaks ⟨words.reverse ++ seen, rest⟩ := by
  induction words generalizing seen with
  | nil => rfl
  | cons first others ih =>
    rw [Grammar.Breaks, List.forall_mem_cons] at h
    rw [List.cons_append, Frame.skipBreaks_cons h.1, ih h.2, List.reverse_cons, List.append_assoc]
    rfl

/-- The diagnostics of a statement stay. -/
theorem minor_of_readFrom {tree : Tree} {outcome : Outcome}
    (h : Minor (readFrom (tree.add outcome) outcome.tape).1.errors) : Minor outcome.errors := by
  obtain ⟨others, hothers⟩ := errors_prefix_readFrom (tree.add outcome) outcome.tape
  rw [← hothers, add, minor_append, minor_append] at h
  exact h.1.2

/-- Line breaks are passed on both tapes, if a token follows them on the first one. -/
theorem shifts_skipBreaks (hrest : tape'.rest = tape.rest.map (Token.moveDown lines) ++ more)
    (hends : more ≠ [] → tape.EndsLine) (hpeek : tape.skipBreaks.peek? = some token) :
    tape.skipBreaks.Shifts lines more tape'.skipBreaks := by
  have hleft := Tape.ne_nil_of_peek? hpeek
  exact (Tape.shifts_of_rest hrest (tape.reaches_skipBreaks.ne_nil hleft) hends).skipBreaks
    fun _ => hleft

/-- A line that is refused is passed on both tapes. -/
theorem refused_line (hrest : tape'.rest = tape.rest.map (Token.moveDown lines) ++ more)
    (hends : more ≠ [] → tape.EndsLine) (hpeek : tape.skipBreaks.peek? = some token) :
    tape'.skipBreaks.peek? = some (token.moveDown lines) ∧
      tape'.skipBreaks.skipLine.rest =
        tape.skipBreaks.skipLine.rest.map (Token.moveDown lines) ++ more ∧
      (more ≠ [] → tape.skipBreaks.skipLine.EndsLine) := by
  have hskip := shifts_skipBreaks hrest hends hpeek
  refine ⟨hskip.peek?_of_some hpeek, hskip.rest_skipLine, fun hmore => ?_⟩
  exact (hends hmore).reaches (tape.reaches_skipBreaks.trans (Tape.reaches_skipLine _))

/-- **Tokens elsewhere and others after them are read one after the other**, if there is no fatal
diagnostic among those of the first. -/
theorem exists_readFrom (before tree : Tree) (tape : Tape) :
    ∀ {tape' : Tape}, tape'.rest = tape.rest.map (Token.moveDown lines) ++ more →
      (more ≠ [] → tape.EndsLine) → (more ≠ [] → Minor (readFrom tree tape).1.errors) →
      ∃ seen, readFrom (before.join lines tree) tape' =
        readFrom (before.join lines (readFrom tree tape).1) ⟨seen, more⟩ := by
  fun_induction readFrom tree tape with
  | case1 tree tape htoken =>
    intro tape' hrest _ _
    obtain ⟨breaks, hbreaks, hall⟩ := Frame.exists_breaks tape
    rw [Tape.rest_of_peek?_eq_none htoken, List.append_nil] at hbreaks
    obtain ⟨seen', rest'⟩ := tape'
    obtain rfl : rest' = _ := hrest
    rw [hbreaks]
    refine ⟨(breaks.map (Token.moveDown lines)).reverse ++ seen', readFrom_congr ?_⟩
    exact skipBreaks_append (by simpa [Grammar.Breaks] using hall)
  | case2 tree tape token htoken hword statement hstatement outcome =>
    rename_i ih
    intro tape' hrest hends hminor
    have hskip := shifts_skipBreaks hrest hends htoken
    have hpeek' := hskip.peek?_of_some htoken
    obtain ⟨hnode, herrors, hafter⟩ := statement.rest_read hskip htoken hstatement fun hmore =>
      minor_of_readFrom (hminor hmore)
    have hends' : more ≠ [] → outcome.tape.EndsLine := fun hmore =>
      (hends hmore).reaches (tape.reaches_skipBreaks.trans (reaches_read statement _))
    obtain ⟨seen, hread⟩ := ih hafter hends' hminor
    refine ⟨seen, ?_⟩
    rw [readFrom_eq, hpeek']
    have hstatement' : Scope.file.statement? (token.moveDown lines).lexeme = some statement :=
      hstatement
    simp only [Token.isWord_moveDown, hword, if_true, hstatement', join_add hnode herrors]
    exact hread
  | case3 tree tape token htoken hword hstatement ih =>
    intro tape' hrest hends hminor
    obtain ⟨hpeek', hafter, hends'⟩ := refused_line hrest hends htoken
    have hstatement' : Scope.file.statement? (token.moveDown lines).lexeme = none := hstatement
    obtain ⟨seen, hread⟩ := ih hafter hends' hminor
    refine ⟨seen, ?_⟩
    rw [readFrom_eq, hpeek']
    simp only [Token.isWord_moveDown, hword, if_true, hstatement', join_report]
    exact hread
  | case4 tree tape token htoken hword ih =>
    intro tape' hrest hends hminor
    obtain ⟨hpeek', hafter, hends'⟩ := refused_line hrest hends htoken
    obtain ⟨seen, hread⟩ := ih hafter hends' hminor
    refine ⟨seen, ?_⟩
    rw [readFrom_eq, hpeek']
    simp only [Token.isWord_moveDown, hword, Bool.false_eq_true, if_false, join_report]
    exact hread

end Tree

/-! ### The tokens of two texts -/

/-- Two texts may follow each other unless the place between them is inside a line break. -/
theorem unifyBreaks_append {first second : List Char}
    (h : first.getLast? ≠ some '\r' ∨ second.head? ≠ some '\n') :
    unifyBreaks (first ++ second) = unifyBreaks first ++ unifyBreaks second := by
  have htail : ∀ {c : Char} {rest : List Char},
      (c :: rest).getLast? ≠ some '\r' ∨ second.head? ≠ some '\n' →
      rest.getLast? ≠ some '\r' ∨ second.head? ≠ some '\n' := by
    intro c rest hcons
    refine hcons.imp (fun hcons hrest => ?_) id
    rw [List.getLast?_cons, hrest] at hcons
    exact hcons rfl
  fun_induction unifyBreaks first with
  | case1 => rfl
  | case2 rest ih => rw [List.cons_append, List.cons_append, unifyBreaks, ih (htail (htail h))]; rfl
  | case3 rest hfeed ih =>
    -- what follows the carriage return is no line feed
    have hnext : ∀ others, rest ++ second ≠ '\n' :: others := by
      intro others hothers
      cases rest with
      | nil =>
        have hhead : second.head? = some '\n' := by
          rw [show second = '\n' :: others from hothers]
          rfl
        exact h.elim (fun h => h rfl) fun h => h hhead
      | cons next more =>
        obtain rfl : next = '\n' := (List.cons.inj hothers).1
        exact hfeed more rfl
    rw [List.cons_append, unifyBreaks, ih (htail h)]
    · rfl
    · exact hnext
  | case4 c rest hboth hreturn ih =>
    rw [List.cons_append, unifyBreaks, ih (htail h)]
    · rfl
    · exact fun others hc _ => hreturn hc
    · exact hreturn

theorem getLast?_unifyBreaks {text : List Char} (h : text.getLast? = some '\n') :
    (unifyBreaks text).getLast? = some '\n' := by
  have hcons : ∀ {c d : Char} {rest : List Char}, (c :: rest).getLast? = some '\n' →
      (rest.getLast? = some '\n' → (unifyBreaks rest).getLast? = some '\n') →
      (rest = [] → d = '\n') → (d :: unifyBreaks rest).getLast? = some '\n' := by
    intro c d rest hlast ih hd
    cases rest with
    | nil => rw [hd rfl]; rfl
    | cons next others =>
      rw [List.getLast?_cons_cons] at hlast
      rw [List.getLast?_cons, ih hlast]
      rfl
  fun_induction unifyBreaks text with
  | case1 => cases h
  | case2 rest ih =>
    rw [List.getLast?_cons_cons] at h
    exact hcons h ih fun _ => rfl
  | case3 rest hfeed ih => exact hcons h ih fun _ => rfl
  | case4 c rest hboth hreturn ih =>
    refine hcons h ih ?_
    rintro rfl
    simpa using h

namespace Position

theorem after_moveDown (position : Position) (c : Char) :
    (position.moveDown lines).after c = (position.after c).moveDown lines := by
  unfold after
  split
  · simp [moveDown, Nat.add_right_comm]
  · rfl

theorem along_moveDown (position : Position) (text : List Char) :
    (position.moveDown lines).along text =
      (position.along text).map fun entry => (entry.1, entry.2.moveDown lines) := by
  induction text generalizing position with
  | nil => rfl
  | cons c rest ih =>
    rw [along, along, after_moveDown, ih]
    rfl

/-- Each line feed starts a line, and a text that ends with one ends at the start of a line. -/
theorem foldl_after_break {text : List Char} (h : text.getLast? = some '\n')
    (position : Position) :
    text.foldl Position.after position = ⟨position.line + text.count '\n', 0⟩ := by
  induction text generalizing position with
  | nil => cases h
  | cons c rest ih =>
    rw [List.foldl_cons]
    cases rest with
    | nil =>
      obtain rfl : c = '\n' := by simpa using h
      rfl
    | cons next others =>
      rw [List.getLast?_cons_cons] at h
      rw [ih h]
      by_cases hc : c = '\n'
      · rw [hc, List.count_cons_self, Position.after, if_pos rfl, Nat.add_assoc, Nat.add_comm 1]
      · simp [Position.after, hc]

end Position

namespace Lexer

/-- The lexer with the word that it holds a number of lines further down. -/
def moveDown (lines : Nat) (lexer : Lexer) : Lexer :=
  { lexer with word := lexer.word.map fun word => { word with start := word.start.moveDown lines } }

variable (lexer : Lexer)

theorem extend_moveDown (c : Char) (position : Position) :
    (lexer.moveDown lines).extend c (position.moveDown lines) =
      (lexer.extend c position).moveDown lines := by
  unfold extend
  cases hword : lexer.word with
  | none => simp [moveDown, hword]
  | some word => simp [moveDown, hword, PendingWord.push]

theorem flush_moveDown :
    (lexer.moveDown lines).flush =
      (lexer.flush.1.map (Token.moveDown lines), lexer.flush.2.moveDown lines) := by
  unfold flush
  cases hword : lexer.word with
  | none => simp [moveDown, hword]
  | some word => simp [moveDown, hword, Token.moveDown, Token.ofLexeme]

theorem step_moveDown (c : Char) (position : Position) :
    (lexer.moveDown lines).step c (position.moveDown lines) =
      ((lexer.step c position).1.map (Token.moveDown lines),
       (lexer.step c position).2.moveDown lines) := by
  have hliteral : (lexer.moveDown lines).inLiteral = lexer.inLiteral := by
    unfold inLiteral moveDown
    cases lexer.word <;> rfl
  unfold step
  rw [hliteral, flush_moveDown, extend_moveDown]
  split
  · simp [moveDown, Token.moveDown, Token.lineBreak]
  · split
    · rfl
    · split
      · rfl
      · split
        · simp [Token.moveDown]
        · rfl

theorem feed_moveDown (characters : List (Char × Position)) :
    (lexer.moveDown lines).feed (characters.map fun entry => (entry.1, entry.2.moveDown lines)) =
      ((lexer.feed characters).1.map (Token.moveDown lines),
       (lexer.feed characters).2.moveDown lines) := by
  induction characters generalizing lexer with
  | nil => rfl
  | cons character rest ih =>
    obtain ⟨c, position⟩ := character
    rw [List.map_cons, feed, step_moveDown, feed]
    simp only [ih, List.map_append]

theorem scan_moveDown (characters : List (Char × Position)) :
    scan {} (characters.map fun entry => (entry.1, entry.2.moveDown lines)) =
      (scan {} characters).map (Token.moveDown lines) := by
  have hfeed := @feed_moveDown lines {} characters
  rw [show moveDown lines {} = {} from rfl] at hfeed
  rw [scan, scan, hfeed, flush_moveDown, List.map_append]

/-- After a line break no word is held, and only a block comment may be open. -/
theorem feed_break (characters : List (Char × Position)) (position : Position)
    (h : (lexer.feed (characters ++ [('\n', position)])).2.comment ≠ some .block) :
    (lexer.feed (characters ++ [('\n', position)])).2 = {} := by
  rw [feed_append, feed, step, if_pos rfl] at h ⊢
  simp only [feed] at h ⊢
  rw [flush_eq] at h ⊢
  have hnone : ∀ comment, OpenComment.afterLine comment ≠ some .block →
      OpenComment.afterLine comment = none := by
    rintro (_ | _ | _) hblock
    · rfl
    · rfl
    · exact absurd rfl hblock
  rw [hnone _ h]

end Lexer

/-- How many line breaks a text has. -/
def lineBreaks (source : String) : Nat := (unifyBreaks source.toList).count '\n'

/-- The characters of a text that ends with a line feed, with their places. -/
theorem exists_characters {source : String} (h : source.toList.getLast? = some '\n') :
    ∃ characters position, (Reader.ofString source).characters =
      characters ++ [('\n', position)] := by
  obtain ⟨init, hinit⟩ := List.getLast?_eq_some_iff.1 (getLast?_unifyBreaks h)
  refine ⟨Position.start.along init, (init.foldl Position.after .start).after '\n', ?_⟩
  rw [Reader.ofString, Reader.characters_eq, hinit, Position.along_append]
  rfl

/-- The places of the second text go on where the first one ends. -/
theorem characters_append {first : String} (h : first.toList.getLast? = some '\n')
    (second : String) :
    (Reader.ofString (first ++ second)).characters =
      (Reader.ofString first).characters ++ (Reader.ofString second).characters.map
        fun entry => (entry.1, entry.2.moveDown (lineBreaks first)) := by
  have hreturn : first.toList.getLast? ≠ some '\r' := by
    rw [h]
    decide
  simp only [Reader.ofString, Reader.characters_eq, String.toList_append]
  rw [unifyBreaks_append (.inl hreturn), Position.along_append,
    Position.foldl_after_break (getLast?_unifyBreaks h), ← Position.along_moveDown]
  rfl

/-- **The tokens of two texts**, if the first one ends with a line break outside block comments. -/
theorem tokenize_append {first : String} (hbreak : first.toList.getLast? = some '\n')
    (hcomment : (Lexer.feed {} (Reader.ofString first).characters).2.comment ≠ some .block)
    (second : String) :
    tokenize (first ++ second) =
      tokenize first ++ (tokenize second).map (Token.moveDown (lineBreaks first)) := by
  obtain ⟨characters, position, hcharacters⟩ := exists_characters hbreak
  have hclean : (Lexer.feed {} (Reader.ofString first).characters).2 = {} := by
    rw [hcharacters] at hcomment ⊢
    exact Lexer.feed_break {} characters position hcomment
  have hfirst : tokenize first = (Lexer.feed {} (Reader.ofString first).characters).1 := by
    have hscan : tokenize first = Lexer.scan {} (Reader.ofString first).characters := rfl
    rw [hscan, Lexer.scan, hclean]
    exact List.append_nil _
  calc tokenize (first ++ second)
      = Lexer.scan {} (Reader.ofString (first ++ second)).characters := rfl
    _ = tokenize first ++ Lexer.scan {} ((Reader.ofString second).characters.map
          fun entry => (entry.1, entry.2.moveDown (lineBreaks first))) := by
        rw [characters_append hbreak, Lexer.scan_append, hclean, hfirst]
    _ = tokenize first ++ (tokenize second).map (Token.moveDown (lineBreaks first)) := by
        rw [Lexer.scan_moveDown]
        rfl

theorem endsLine_tokenize {source : String} (h : source.toList.getLast? = some '\n') :
    (Tape.ofTokens (tokenize source)).EndsLine := by
  refine ⟨regular_tokenize source, ?_⟩
  obtain ⟨characters, position, hcharacters⟩ := exists_characters h
  obtain ⟨comment, hscan⟩ := Lexer.scan_break {} characters [] position
  have htokens : tokenize source = Lexer.scan {} characters ++ [.lineBreak position] := by
    rw [← hcharacters] at hscan
    exact hscan
  intro token htoken
  rw [Tape.ofTokens, htokens, List.getLast?_concat] at htoken
  cases htoken
  rfl

/-! ### Two files in a row -/

namespace Tree

@[simp] theorem join_empty (before : Tree) (lines : Nat) : before.join lines {} = before := by
  simp [join, Node.emptyRoot, Node.leaf]

/-- **Two lists of tokens are read one after the other**, if the first one ends with a line break
and has no fatal diagnostic. -/
theorem ofTokens_append {first second : List Token} (hends : (Tape.ofTokens first).EndsLine)
    (hminor : Minor (ofTokens first).errors) (lines : Nat) :
    ofTokens (first ++ second.map (Token.moveDown lines)) =
      (join {} 0 (ofTokens first)).join lines (ofTokens second) := by
  have hstay : first ++ second.map (Token.moveDown lines) =
      first.map (Token.moveDown 0) ++ second.map (Token.moveDown lines) := by
    rw [show Token.moveDown 0 = id from rfl, List.map_id]
  obtain ⟨seen, hfirst⟩ := exists_readFrom {} {} (.ofTokens first)
    (show (Tape.ofTokens (first ++ second.map (Token.moveDown lines))).rest = _ from hstay)
    (fun _ => hends) fun _ => hminor
  -- the tokens of the second list have none behind them
  obtain ⟨last, hsecond⟩ := exists_readFrom (join {} 0 (ofTokens first)) {} (.ofTokens second)
    (show (Tape.mk seen (second.map (Token.moveDown lines))).rest = _ from
      (List.append_nil _).symm) (fun h => absurd rfl h) fun h => absurd rfl h
  rw [join_empty] at hfirst hsecond
  rw [ofTokens, hfirst]
  rw [ofTokens] at hsecond ⊢
  rw [hsecond, readFrom_of_end rfl]
  rfl

/-- **Files compose at line ends.** If a text ends with a line feed, has no fatal diagnostic and
leaves no block comment open, then any text may follow it: its statements follow those of the first,
and so do its diagnostics, as many lines further down as the first text has line breaks. -/
theorem ofSource_append (first second : String) (hbreak : first.toList.getLast? = some '\n')
    (hminor : Minor (ofSource first).errors)
    (hcomment : (Lexer.feed {} (Reader.ofString first).characters).2.comment ≠ some .block) :
    (ofSource (first ++ second)).root.children =
        (ofSource first).root.children ++ (ofSource second).root.children ∧
      (ofSource (first ++ second)).errors = (ofSource first).errors ++
        (ofSource second).errors.map (Diagnostic.moveDown (lineBreaks first)) := by
  have happend : ofSource (first ++ second) =
      (join {} 0 (ofSource first)).join (lineBreaks first) (ofSource second) := by
    rw [ofSource, tokenize_append hbreak hcomment]
    exact ofTokens_append (endsLine_tokenize hbreak) hminor _
  have hstay : (ofSource first).errors.map (Diagnostic.moveDown 0) = (ofSource first).errors := by
    rw [show Diagnostic.moveDown 0 = id from rfl, List.map_id]
  rw [happend]
  exact ⟨by simp [join, Node.append, Node.emptyRoot, Node.leaf], by simp [join, hstay]⟩

/-- Lines that end within a literal, a statement, a member and a comment. -/
def unfinishedLines : String :=
  "import 'a\\\npackage a /* b */\nmessage M \x7b\nint32 a\n\x7d // 'c\n"

theorem ofSource_append_unfinishedLines :
    unfinishedLines.toList.getLast? = some '\n' ∧ Minor (ofSource unfinishedLines).errors ∧
      (Lexer.feed {} (Reader.ofString unfinishedLines).characters).2.comment ≠ some .block ∧
      (ofSource unfinishedLines).errors.length = 3 ∧
      (ofSource (unfinishedLines ++ "package b;\npackage 1;")).errors =
        (ofSource unfinishedLines).errors ++
          [⟨.unexpected .packageName, ⟨.number, ⟨7, 9⟩, "1"⟩⟩] := by
  have hbreak : unfinishedLines.toList.getLast? = some '\n' := by decide +kernel
  have hminor : Minor (ofSource unfinishedLines).errors := by
    unfold Minor
    decide +kernel
  have hcomment : (Lexer.feed {} (Reader.ofString unfinishedLines).characters).2.comment ≠
      some .block := by decide +kernel
  have happend := (ofSource_append unfinishedLines "package b;\npackage 1;" hbreak hminor
    hcomment).2
  refine ⟨hbreak, hminor, hcomment, by decide +kernel, happend.trans ?_⟩
  rw [List.append_cancel_left_eq]
  decide +kernel

end Tree

end ProtoSchema
