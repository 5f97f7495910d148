import ProtoSchema.Proofs.Lockstep
import ProtoSchema.Proofs.Shift

/-!
# What a step can do

From a place between statements a step passes a whole statement, the header of a block, a brace that
closes one, or a line that is refused, or it gives up at the end of the tokens. What holds of all
places that a file leads to is therefore shown move by move.

* `Tape.Reports`: where the token of a diagnostic stands.
* `Parse.FailsAhead`: a parse that fails at the next token; inferred for comments and headers.
* `Statement.blames_of_error`: the diagnostic of any statement, wherever reading starts.
* `Place.Move`: the moves; `Place.move_of_step`: every step is one of them.
* `Tree.exists_last_of_moves`: what every move keeps holds of the place where a file ends.
-/

namespace ProtoSchema

open Parse

variable {tape after : Tape} {token : Token}

/-! ### The token of a diagnostic -/

/-- A diagnostic about tokens from one place on, made at a later place, points at a token: at the
next one, or the last of all where there is none, or at the one just passed. -/
def Tape.Reports (tape after : Tape) (token : Token) : Prop :=
  tape.Reaches after ∧
    (after.nearest = token ∨ token ∈ tape.rest ∧ after.seen.head? = some token)

theorem Tape.reports_of_peek? (h : tape.peek? = some token) : tape.Reports tape token :=
  ⟨.refl tape, .inl (by rw [nearest, h]; rfl)⟩

theorem Tape.Reaches.mem_rest_of_peek? (h : tape.Reaches after) (hpeek : after.peek? = some token) :
    token ∈ tape.rest :=
  Tape.mem_rest_of_reaches h (List.mem_of_head? hpeek)

/-- A reading is coupled with itself, and what it passes are tokens from one place on. -/
def Coupling.onward (origin : Tape) : Coupling where
  rel tape tape' := tape' = tape ∧ origin.Reaches tape
  twin := Eq
  opened tape tape' := tape' = tape ∧ origin.Reaches tape
  passes token := token ∈ origin.rest
  kept _ := True
  kept_of_reaches _ _ := trivial
  twin_eq := @Token.exists_position
  peek := by
    rintro _ tape ⟨rfl, -⟩
    cases tape.peek? with
    | none => exact .none
    | some token => exact .some rfl
  nearest := by
    rintro _ tape ⟨rfl, -⟩
    rfl
  advance := by
    rintro _ tape token ⟨rfl, h⟩ - - -
    exact ⟨rfl, h.trans tape.reaches_advance⟩
  opens := by
    rintro _ tape token ⟨rfl, h⟩ - - -
    exact ⟨rfl, h.trans tape.reaches_advance⟩
  skipBreaks := by
    rintro _ tape ⟨rfl, h⟩ -
    exact ⟨rfl, h.trans tape.reaches_skipBreaks⟩
  stream _ _ _ := trivial
  passes_of_inner := by
    rintro _ tape token ⟨rfl, h⟩ hpeek -
    exact h.mem_rest_of_peek? hpeek

/-- The same coupling of readings that may pass fewer tokens. Those inside statements must be among
them. -/
def Coupling.restrict (coupling : Coupling) (limit : Token → Prop)
    (hlimit : ∀ token, (token.Regular → token.Inner) → limit token) : Coupling :=
  { coupling with
    passes := fun token => coupling.passes token ∧ limit token
    advance := fun hrel hpeek hpasses => coupling.advance hrel hpeek hpasses.1
    passes_of_inner := fun hrel hpeek hinner =>
      ⟨coupling.passes_of_inner hrel hpeek hinner, hlimit _ hinner⟩ }

namespace Parse

variable {α β : Type}

/-- A parse that fails at the next token, or at the last of all where there is none, unless it fails
for good. -/
class FailsAhead (parse : Parse α) : Prop where
  nearest : ∀ {tape after : Tape} {diagnostic : Diagnostic},
    parse tape = .error diagnostic after → diagnostic.isFatal = false →
    after.nearest = diagnostic.token

instance (value : α) : FailsAhead (pure value : Parse α) where
  nearest h := by cases h

instance {parse : Parse α} {next : α → Parse β} [FailsAhead parse]
    [∀ value, FailsAhead (next value)] : FailsAhead (parse >>= next) where
  nearest {tape after diagnostic} h hminor := by
    rcases bind_eq_error.1 h with hparse | ⟨value, middle, -, hnext⟩
    · exact FailsAhead.nearest hparse hminor
    · exact FailsAhead.nearest hnext hminor

instance (test : Bool) {yes no : Parse α} [FailsAhead yes] [FailsAhead no] :
    FailsAhead (if test then yes else no) := by
  cases test <;> assumption

instance (terminal : Terminal) : FailsAhead (expect terminal) where
  nearest {tape after diagnostic} h _ := by
    unfold expect at h
    cases hpeek : tape.peek? with
    | none =>
      rw [Coupling.check_of_none hpeek] at h
      cases h
      rfl
    | some token =>
      rw [Coupling.check_of_some hpeek] at h
      by_cases hadmits : terminal.admits token = true
      · rw [if_pos hadmits] at h
        cases h
      · rw [if_neg hadmits] at h
        cases h
        rw [Tape.nearest, hpeek]
        rfl

instance : FailsAhead anyToken where
  nearest {tape after diagnostic} h _ := by
    unfold anyToken at h
    split at h
    · cases h
    · cases h
      rfl

instance (mark : OpenComment) (test : String → Bool) : FailsAhead (commentOpener mark test) where
  nearest {tape after diagnostic} h _ := by
    unfold commentOpener at h
    split at h
    · cases h
    · cases h
      rfl

instance (test : Token → Bool) : FailsAhead (takeUntil test) where
  nearest h := by cases h

instance (opener : Token) : FailsAhead (commentCloser opener) where
  nearest {tape after diagnostic} h hminor := by
    unfold commentCloser at h
    split at h
    · cases h
    · cases h
      cases hminor

instance (kind : Node.Kind) (scope : Scope) : FailsAhead (header kind scope) := by
  unfold header; infer_instance

instance : FailsAhead lineComment := by unfold lineComment; infer_instance

instance : FailsAhead blockComment := by unfold blockComment; infer_instance

instance (parse : Parse Node) [FailsAhead parse] : FailsAhead (whole parse) := by
  unfold whole; infer_instance

end Parse

/-- Comments and blocks with a name start with a token that is taken without a look at it, or are
refused there. -/
theorem Statement.failsAhead_start {statement : Statement}
    (h : (Grammar.namedBlock? statement).isSome = true ∨ ∃ mark, statement = .comment mark) :
    FailsAhead statement.start := by
  cases statement with
  | comment mark => cases mark <;> unfold start <;> infer_instance
  | message | oneof | enum | service => unfold start; infer_instance
  | _ => simp [Grammar.namedBlock?] at h

/-- A diagnostic points at a token that ends no line, if that token was passed. -/
structure Tape.Blames (tape after : Tape) (token : Token) : Prop where
  reports : tape.Reports after token
  passed : after.nearest ≠ token → token.Regular → token.isLineEnd = false

/-- **A statement that is refused is refused at one of its tokens**, or at the last token of all. -/
theorem Statement.blames_of_error {statement : Statement} {diagnostic : Diagnostic}
    (herror : statement.start tape = .error diagnostic after)
    (hminor : diagnostic.isFatal = false) : tape.Blames after diagnostic.token := by
  have hreach := Lawful.reaches_of_error herror
  have hahead : after.nearest = diagnostic.token → tape.Blames after diagnostic.token :=
    fun hnearest => ⟨⟨hreach, .inl hnearest⟩, fun hne => absurd hnearest hne⟩
  by_cases hany : (Grammar.namedBlock? statement).isSome = true ∨ ∃ mark, statement = .comment mark
  · have hfails := failsAhead_start hany
    exact hahead (FailsAhead.nearest herror hminor)
  · rw [not_or, not_exists] at hany
    obtain ⟨hnamed, hcomment⟩ := hany
    -- what the other statements pass before they fail are tokens inside statements
    have hagrees := ((Coupling.onward tape).restrict
      (fun token => token.Regular → token.isLineEnd = false)
      fun _ hinner hregular => (hinner hregular).lineEnd).agrees_start statement hcomment
      ⟨rfl, .refl tape⟩ (fun h => absurd h hnamed) trivial
    rw [herror] at hagrees
    cases hagrees with
    | error _ _ hplace =>
      rcases hplace with hnearest | ⟨⟨hmem, hline⟩, hhead⟩
      · exact hahead hnearest
      · exact ⟨⟨hreach, .inr ⟨hmem, hhead⟩⟩, fun _ => hline⟩

/-- A statement that fails for good is a comment, and fails at its first token. -/
theorem Statement.eq_of_fatal {scope : Scope} {statement : Statement} {diagnostic : Diagnostic}
    (hpeek : tape.peek? = some token) (hstatement : scope.statement? token.lexeme = some statement)
    (herror : statement.start tape = .error diagnostic after) (hfatal : diagnostic.isFatal = true) :
    diagnostic.token = token := by
  by_cases hblock : statement = .comment .block
  · subst hblock
    rcases start_comment hpeek (Scope.opens_of_statement? hstatement) with
      ⟨_, _, _, _, hok⟩ | ⟨-, _, -, hlater⟩
    · rw [herror] at hok
      cases hok
    · rw [herror] at hlater
      cases hlater
      rfl
  · have hrecover := recoverable_start hblock
    rw [Recoverable.minor herror] at hfatal
    cases hfatal

/-! ### Moves -/

namespace Place

variable {place next : Place}

/-- One move: over a whole statement, into a block, out of it, past a line that is refused, or out
of the file. -/
inductive Move (place : Place) : Place → Prop
  | whole {token : Token} {statement : Statement} {node : Node} {after : Tape}
      (hpeek : place.tape.skipBreaks.peek? = some token)
      (hstatement : place.scope.statement? token.lexeme = some statement)
      (hstart : statement.start place.tape.skipBreaks = .ok (.whole node) after) :
      Move place (place.add node after)
  | opened {token : Token} {statement : Statement} {frame : Frame} {after : Tape}
      (hpeek : place.tape.skipBreaks.peek? = some token)
      (hstatement : place.scope.statement? token.lexeme = some statement)
      (hstart : statement.start place.tape.skipBreaks = .ok (.opened frame) after) :
      Move place ⟨frame :: place.blocks, place.tree, after⟩
  | closed {token : Token} {top : Frame} {below : List Frame}
      (hpeek : place.tape.skipBreaks.peek? = some token)
      (hbrace : token.isMark .closeBrace = true) (hblocks : place.blocks = top :: below) :
      Move place (add ⟨below, place.tree, place.tape⟩ top.node
        (top.scope.afterBody place.tape.skipBreaks.advance))
  | refused {problem : Problem} {token : Token} {after : Tape}
      (hleft : place.tape.skipBreaks.rest ≠ [])
      (hreports : place.tape.skipBreaks.Reports after token) (hminor : problem.isFatal = false) :
      Move place (place.refuse problem token after)
  | abandoned {problem : Problem} {token : Token} {after : Tape} (hend : after.rest = [])
      (hfatal : problem.isFatal = true)
      (htoken : token ∈ place.tape.rest ∨ ∃ frame ∈ place.blocks, frame.opener = token) :
      Move place (place.abandon problem token after)

/-- What starts with the next token is a move. -/
theorem move_dispatch (hpeek : place.tape.skipBreaks.peek? = some token) :
    place.Move (place.dispatch token place.tape.skipBreaks) := by
  have hleft := Tape.ne_nil_of_peek? hpeek
  unfold dispatch
  split
  · have hminor := minor_singleton.1 (place.scope.minor_refusal token)
    exact .refused hleft (Tape.reports_of_peek? hpeek) hminor
  · rename_i statement hstatement
    unfold follow
    split <;> rename_i hstart
    · exact .whole hpeek hstatement hstart
    · exact .opened hpeek hstatement hstart
    · split
      · rename_i diagnostic after hfatal
        refine .abandoned (Lawful.rest_of_fatal hstart hfatal) hfatal (.inl ?_)
        rw [Statement.eq_of_fatal hpeek hstatement hstart hfatal]
        exact place.tape.reaches_skipBreaks.mem_rest_of_peek? hpeek
      · rename_i diagnostic after hminor
        rw [Bool.not_eq_true] at hminor
        exact .refused hleft (Statement.blames_of_error hstart hminor).reports hminor

/-- **Every step is a move.** -/
theorem move_of_step (h : place.step = some next) : place.Move next := by
  unfold step at h
  split at h
  · rename_i token hpeek
    cases h
    unfold proceed
    split
    · split
      · exact move_dispatch hpeek
      · exact .refused (Tape.ne_nil_of_peek? hpeek) (Tape.reports_of_peek? hpeek) rfl
    · rename_i top below hblocks
      split
      · rename_i hbrace
        exact .closed hpeek hbrace hblocks
      · exact move_dispatch hpeek
  · cases h
  · rename_i top below hpeek hblocks
    cases h
    exact .abandoned (Tape.rest_of_peek?_eq_none hpeek) rfl (.inr ⟨top, by simp [hblocks], rfl⟩)

end Place

/-- **What every move keeps holds of the place where a file ends.** -/
theorem Tree.exists_last_of_moves {tokens : List Token} {Kept : Place → Prop}
    (hstart : Kept (.start tokens))
    (hmove : ∀ {place next : Place}, Kept place → place.tape.Reaches next.tape → place.Move next →
      Kept next) :
    ∃ last, Kept last ∧ last.tree = ofTokens tokens := by
  obtain ⟨last, hsteps, -, htree⟩ := exists_run tokens
  refine ⟨last, ?_, htree⟩
  clear htree
  induction hsteps with
  | refl => exact hstart
  | tail _ hstep ih => exact hmove ih (Place.reaches_step hstep) (Place.move_of_step hstep)

end ProtoSchema
