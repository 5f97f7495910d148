import Mathlib.Data.List.TakeWhile
import ProtoSchema.Proofs.Nesting

/-!
# The same tokens elsewhere

Reading depends on the kinds and words of tokens and not on their places, and on no token behind the
one it has reached. So a parse ends alike on the same tokens some lines further down, and with other
tokens after them, as long as it does not come to the end of its own.

* `Token.moveDown`: a token some lines further down, as a diagnostic at it and a block it opens.
* `Tape.Shifts`: a tape with the tokens of another one, further down and with others after them.
* `Parse.Alike`: two parses that end alike on such tapes, such as those that comments are made of.
-/

namespace ProtoSchema

variable {α β γ δ : Type} {lines : Nat} {more : List Token} {tape tape' after after' : Tape}
  {token : Token}

/-! ### Tokens further down -/

/-- The place a number of lines further down. -/
def Position.moveDown (lines : Nat) (position : Position) : Position :=
  ⟨position.line + lines, position.column⟩

/-- The token a number of lines further down. -/
def Token.moveDown (lines : Nat) (token : Token) : Token :=
  { token with position := token.position.moveDown lines }

/-- The diagnostic at the token a number of lines further down. -/
def Diagnostic.moveDown (lines : Nat) (diagnostic : Diagnostic) : Diagnostic :=
  { diagnostic with token := diagnostic.token.moveDown lines }

/-- The block with its opening brace a number of lines further down. -/
def Frame.moveDown (lines : Nat) (frame : Frame) : Frame :=
  { frame with opener := frame.opener.moveDown lines }

/-- The statement that was read, a number of lines further down. -/
def Reading.moveDown (lines : Nat) : Reading → Reading
  | whole node => whole node
  | opened frame => opened (frame.moveDown lines)

namespace Token

@[simp] theorem lexeme_moveDown (token : Token) : (token.moveDown lines).lexeme = token.lexeme :=
  rfl

@[simp] theorem isLineEnd_moveDown (token : Token) :
    (token.moveDown lines).isLineEnd = token.isLineEnd := rfl

@[simp] theorem isWord_moveDown (token : Token) : (token.moveDown lines).isWord = token.isWord :=
  rfl

end Token

@[simp] theorem Diagnostic.isFatal_moveDown (diagnostic : Diagnostic) :
    (diagnostic.moveDown lines).isFatal = diagnostic.isFatal := rfl

/-! ### Tapes -/

namespace Tape

/-- Tokens that are left now were left before. -/
theorem Reaches.ne_nil (h : tape.Reaches after) (hafter : after.rest ≠ []) : tape.rest ≠ [] := by
  obtain ⟨passed, hrest, -⟩ := h
  rw [hrest]
  exact List.append_ne_nil_of_right_ne_nil _ hafter

theorem ne_nil_of_peek? (h : tape.peek? = some token) : tape.rest ≠ [] := by
  rw [Frame.rest_of_peek? h]
  exact List.cons_ne_nil _ _

/-- The tokens to come are those of a text that ends with a line break, if there are any. -/
structure EndsLine (tape : Tape) : Prop where
  regular : ∀ token ∈ tape.rest, token.Regular
  last : ∀ token ∈ tape.rest.getLast?, token.isLineEnd = true

theorem EndsLine.reaches (h : tape.EndsLine) (hreach : tape.Reaches after) : after.EndsLine := by
  obtain ⟨passed, hrest, -⟩ := hreach
  have hregular := h.regular
  have hlast := h.last
  rw [hrest] at hregular hlast
  refine ⟨(List.forall_mem_append.1 hregular).2, ?_⟩
  intro token htoken
  exact hlast token (by rw [List.getLast?_append, Option.mem_def.1 htoken]; rfl)

/-- A token that is no line break is not the last one. -/
theorem EndsLine.ne_nil (h : tape.EndsLine) {rest : List Token} (hrest : tape.rest = token :: rest)
    (htoken : token.isLineEnd = false) : rest ≠ [] := by
  rintro rfl
  have hlast := h.last token (by rw [hrest]; rfl)
  rw [htoken] at hlast
  cases hlast

/-- There is a line break to come, so that not all tokens are passed on the way to it. -/
theorem EndsLine.ne_nil_of_skipWhile (h : tape.EndsLine) (hleft : tape.rest ≠ []) :
    (tape.skipWhile (!·.isLineEnd)).rest ≠ [] := by
  intro hnil
  obtain ⟨token, htoken⟩ := Option.isSome_iff_exists.1 (List.getLast?_isSome.2 hleft)
  have hend := h.last token htoken
  have hpassed := List.dropWhile_eq_nil_iff.1 hnil token (List.mem_of_getLast? htoken)
  rw [hend] at hpassed
  cases hpassed

/-- The second tape holds the tokens of the first one, a number of lines further down, and others
after them. Where there are others, the first tape is not at its end, which is that of a line. -/
structure Shifts (lines : Nat) (more : List Token) (tape tape' : Tape) : Prop where
  rest : tape'.rest = tape.rest.map (Token.moveDown lines) ++ more
  nearest : tape'.nearest = tape.nearest.moveDown lines
  left : more ≠ [] → tape.rest ≠ []
  ends : more ≠ [] → tape.EndsLine

/-- Next tokens decide which token is nearest. -/
theorem shifts_of_rest (hrest : tape'.rest = tape.rest.map (Token.moveDown lines) ++ more)
    (hleft : tape.rest ≠ []) (hends : more ≠ [] → tape.EndsLine) :
    tape.Shifts lines more tape' := by
  refine ⟨hrest, ?_, fun _ => hleft, hends⟩
  obtain ⟨token, rest, htape⟩ := List.exists_cons_of_ne_nil hleft
  simp [nearest, peek?, hrest, htape]

namespace Shifts

theorem more_eq_nil (h : tape.Shifts lines more tape') (hrest : tape.rest = []) : more = [] := by
  by_contra hmore
  exact h.left hmore hrest

theorem rest_eq_nil (h : tape.Shifts lines more tape') (hrest : tape.rest = []) :
    tape'.rest = [] := by
  rw [h.rest, hrest, h.more_eq_nil hrest]
  rfl

theorem rest_cons (h : tape.Shifts lines more tape') {rest : List Token}
    (hrest : tape.rest = token :: rest) :
    tape'.rest = token.moveDown lines :: (rest.map (Token.moveDown lines) ++ more) := by
  rw [h.rest, hrest]
  rfl

theorem peek?_eq (h : tape.Shifts lines more tape') :
    tape'.peek? = tape.peek?.map (Token.moveDown lines) := by
  cases hrest : tape.rest with
  | nil => simp [peek?, hrest, h.rest_eq_nil hrest]
  | cons token rest => simp [peek?, hrest, h.rest_cons hrest]

theorem peek?_of_some (h : tape.Shifts lines more tape') (hpeek : tape.peek? = some token) :
    tape'.peek? = some (token.moveDown lines) := by
  rw [h.peek?_eq, hpeek]
  rfl

/-- The next token is passed on both tapes. -/
theorem advance (h : tape.Shifts lines more tape') (hleft : more ≠ [] → tape.advance.rest ≠ []) :
    tape.advance.Shifts lines more tape'.advance := by
  cases hrest : tape.rest with
  | nil =>
    have hrest' := h.rest_eq_nil hrest
    simpa [Tape.advance, hrest, hrest'] using h
  | cons token rest =>
    have hrest' := h.rest_cons hrest
    refine ⟨by simp [Tape.advance, hrest, hrest'], ?_, hleft, fun hmore =>
      (h.ends hmore).reaches tape.reaches_advance⟩
    -- the token that was passed is the nearest one only at the end
    cases rest with
    | nil =>
      have hmore : more = [] := by
        by_contra hmore
        exact hleft hmore (by simp [Tape.advance, hrest])
      simp [Tape.nearest, peek?, Tape.advance, hrest, hrest', hmore]
    | cons next others => simp [Tape.nearest, peek?, Tape.advance, hrest, hrest']

/-- A run of tokens is passed on both tapes. -/
theorem skipWhile {test : Token → Bool} (htest : ∀ token, test (token.moveDown lines) = test token)
    (h : tape.Shifts lines more tape') (hleft : more ≠ [] → (tape.skipWhile test).rest ≠ []) :
    (tape.skipWhile test).Shifts lines more (tape'.skipWhile test) := by
  obtain ⟨seen, rest⟩ := tape
  obtain ⟨seen', rest'⟩ := tape'
  induction rest generalizing seen seen' rest' with
  | nil =>
    obtain rfl : rest' = [] := h.rest_eq_nil rfl
    exact h
  | cons token rest ih =>
    obtain rfl : rest' = _ := h.rest_cons rfl
    cases hpass : test token with
    | false => simpa [Tape.skipWhile, htest, hpass] using h
    | true =>
      have hadvance := h.advance fun hmore hnil => hleft hmore (by
        -- nothing is left after the run if nothing was left before it
        simp [Tape.skipWhile, hpass, show rest = [] from hnil])
      have hskip := ih (token :: seen) (fun hmore => ?_) _ _ hadvance
      · simpa [Tape.skipWhile, htest, hpass] using hskip
      · simpa [Tape.skipWhile, hpass] using hleft hmore

theorem skipBreaks (h : tape.Shifts lines more tape')
    (hleft : more ≠ [] → tape.skipBreaks.rest ≠ []) :
    tape.skipBreaks.Shifts lines more tape'.skipBreaks :=
  h.skipWhile (fun _ => rfl) hleft

/-- A token is taken on both tapes or on none. -/
theorem takeIf {test : Token → Bool} (htest : ∀ token, test (token.moveDown lines) = test token)
    (h : tape.Shifts lines more tape') (hleft : more ≠ [] → (tape.takeIf test).2.rest ≠ []) :
    (tape'.takeIf test).1 = (tape.takeIf test).1.map (Token.moveDown lines) ∧
      (tape.takeIf test).2.Shifts lines more (tape'.takeIf test).2 := by
  have hfilter : tape'.peek?.filter test = (tape.peek?.filter test).map (Token.moveDown lines) := by
    rw [h.peek?_eq]
    cases tape.peek? with
    | none => rfl
    | some token => cases hpass : test token <;> simp [Option.filter, htest, hpass]
  unfold Tape.takeIf at hleft ⊢
  rw [hfilter]
  cases hnext : tape.peek?.filter test with
  | none => exact ⟨rfl, h⟩
  | some token =>
    rw [hnext] at hleft
    exact ⟨rfl, h.advance hleft⟩

end Shifts

end Tape

/-! ### Parses -/

namespace Parse

/-- Two parses ended alike: both with a value or both with a diagnostic, on such tapes again. -/
inductive Agrees (lines : Nat) (more : List Token) (move : α → β) :
    EStateM.Result Diagnostic Tape α → EStateM.Result Diagnostic Tape β → Prop
  | ok {value : α} {tape tape' : Tape} (h : tape.Shifts lines more tape') :
      Agrees lines more move (.ok value tape) (.ok (move value) tape')
  | error {diagnostic : Diagnostic} {tape tape' : Tape} (h : tape.Shifts lines more tape') :
      Agrees lines more move (.error diagnostic tape) (.error (diagnostic.moveDown lines) tape')

/-- Two parses end alike on tapes that hold the same tokens, unless the first one comes to the end
of its tape and there are others behind it. -/
def Alike (lines : Nat) (more : List Token) (move : α → β) (parse : Parse α) (parse' : Parse β) :
    Prop :=
  ∀ ⦃tape tape' : Tape⦄, tape.Shifts lines more tape' →
    (more ≠ [] → (endTape (parse tape)).rest ≠ []) →
    Agrees lines more move (parse tape) (parse' tape')

theorem alike_pure {move : α → β} {value : α} {value' : β} (h : move value = value') :
    Alike lines more move (pure value) (pure value') := by
  intro tape tape' hshifts _
  subst h
  exact .ok hshifts

/-- A sequence that leaves tokens has left some after its first part. -/
theorem rest_of_bind {parse : Parse α} {next : α → Parse β} [∀ value, Lawful (next value)]
    (h : (endTape ((parse >>= next) tape)).rest ≠ []) : (endTape (parse tape)).rest ≠ [] := by
  rw [bind_apply] at h
  cases hparse : parse tape with
  | error diagnostic after =>
    rw [hparse] at h
    exact h
  | ok value middle =>
    have hreach : middle.Reaches (endTape (next value middle)) := Lawful.reaches middle
    rw [hparse] at h
    exact hreach.ne_nil h

/-- A sequence ends alike if its first part does, and its second part after it. -/
theorem Agrees.bind {first : α → β} {second : γ → δ} {parse : Parse α} {parse' : Parse β}
    {next : α → Parse γ} {next' : β → Parse δ} [∀ value, Lawful (next value)]
    (hleft : more ≠ [] → (endTape ((parse >>= next) tape)).rest ≠ [])
    (h : (more ≠ [] → (endTape (parse tape)).rest ≠ []) →
      Agrees lines more first (parse tape) (parse' tape'))
    (hnext : ∀ {value middle middle'}, parse tape = .ok value middle →
      middle.Shifts lines more middle' → (more ≠ [] → (endTape (next value middle)).rest ≠ []) →
      Agrees lines more second (next value middle) (next' (first value) middle')) :
    Agrees lines more second ((parse >>= next) tape) ((parse' >>= next') tape') := by
  have hagrees := h fun hmore => rest_of_bind (hleft hmore)
  rw [bind_apply] at hleft
  rw [bind_apply, bind_apply]
  generalize parse tape = result at hagrees hleft hnext
  generalize parse' tape' = result' at hagrees
  cases hagrees with
  | ok hmiddle => exact hnext rfl hmiddle hleft
  | error hend => exact .error hend

theorem Alike.bind {first : α → β} {second : γ → δ} {parse : Parse α} {parse' : Parse β}
    {next : α → Parse γ} {next' : β → Parse δ} [∀ value, Lawful (next value)]
    (h : Alike lines more first parse parse')
    (hnext : ∀ value, Alike lines more second (next value) (next' (first value))) :
    Alike lines more second (parse >>= next) (parse' >>= next') :=
  fun _ _ hshifts hleft => .bind hleft (h hshifts) fun _ hmiddle => hnext _ hmiddle

theorem alike_ite {move : α → β} {test : Bool} {yes no : Parse α} {yes' no' : Parse β}
    (hyes : Alike lines more move yes yes') (hno : Alike lines more move no no') :
    Alike lines more move (if test then yes else no) (if test then yes' else no') := by
  cases test
  · exact hno
  · exact hyes

theorem endTape_check (terminal : Terminal) (tape : Tape) :
    endTape (check terminal tape) = tape := by
  unfold check
  split
  · rfl
  · split <;> rfl

theorem alike_commentOpener (mark : OpenComment) (test : String → Bool) :
    Alike lines more (Token.moveDown lines) (commentOpener mark test)
      (commentOpener mark test) := by
  intro tape tape' hshifts hleft
  unfold commentOpener Tape.takeIf at hleft ⊢
  rw [hshifts.peek?_eq, hshifts.nearest]
  cases hpeek : tape.peek? with
  | none => exact .error hshifts
  | some token =>
    rw [hpeek] at hleft
    cases htest : test token.lexeme with
    | false =>
      simp only [Option.map_some, Option.filter, Token.lexeme_moveDown, htest]
      exact .error hshifts
    | true =>
      simp only [Option.map_some, Option.filter, Token.lexeme_moveDown, htest] at hleft ⊢
      exact .ok (hshifts.advance hleft)

theorem takeWhile_moveDown {test : Token → Bool} {rest : List Token}
    (htest : ∀ token, test (token.moveDown lines) = test token)
    (hleft : more ≠ [] → rest.dropWhile test ≠ []) :
    (rest.map (Token.moveDown lines) ++ more).takeWhile test =
      (rest.takeWhile test).map (Token.moveDown lines) := by
  induction rest with
  | nil =>
    obtain rfl : more = [] := by
      by_contra hmore
      exact hleft hmore rfl
    rfl
  | cons token rest ih =>
    cases hpass : test token with
    | false => simp [htest, hpass]
    | true =>
      rw [List.dropWhile_cons_of_pos hpass] at hleft
      simp [htest, hpass, ih hleft]

theorem alike_takeUntil {test : Token → Bool}
    (htest : ∀ token, test (token.moveDown lines) = test token) :
    Alike lines more (List.map (Token.moveDown lines)) (takeUntil test) (takeUntil test) := by
  intro tape tape' hshifts hleft
  have htests : ∀ token, (!test (token.moveDown lines)) = !test token := by
    intro token
    rw [htest]
  unfold takeUntil
  rw [hshifts.rest, takeWhile_moveDown htests hleft]
  exact .ok (hshifts.skipWhile htests hleft)

theorem alike_commentCloser (opener : Token) :
    Alike lines more (Token.moveDown lines) (commentCloser opener)
      (commentCloser (opener.moveDown lines)) := by
  intro tape tape' hshifts hleft
  unfold commentCloser at hleft ⊢
  rw [hshifts.peek?_eq]
  cases hpeek : tape.peek? with
  | none => exact .error hshifts
  | some token =>
    rw [hpeek] at hleft
    exact .ok (hshifts.advance hleft)

end Parse

end ProtoSchema
