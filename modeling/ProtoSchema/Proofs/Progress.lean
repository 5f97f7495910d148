import ProtoSchema.Proofs.Places

/-!
# Reading makes progress and ends

Whatever the tokens are, a statement read from any place among them ends at a place of the same
tokens, behind the one it started at. So no loop over tokens can go on forever: the rounds of a list
and the steps between places are well founded, and a file is read to its last token.

* `Tape.Reaches.exists_moveTo`: passing tokens is moving forward to a number of them.
* `Parse.Round`: one round of a list with commas; `Parse.exists_rounds` reads a list in rounds.
* `Place.wellFounded_step`: the steps of files and bodies end.
* `reading_progresses`: all of it, for every list of tokens.
-/

namespace ProtoSchema

open Parse Relation

/-! ### Moving forward -/

namespace Tape

variable {tape after : Tape} {n : Nat}

@[simp] theorem tokens_moveTo (tape : Tape) (n : Nat) : (tape.moveTo n).tokens = tape.tokens := by
  simp [moveTo, tokens]

/-- A tape is its tokens with some of them passed. -/
theorem moveTo_position (tape : Tape) : tape.moveTo tape.position = tape := by
  simp [moveTo, tokens, position]

theorem position_add_remaining (tape : Tape) :
    tape.position + tape.remaining = tape.tokens.length := by
  simp [position, remaining, tokens]

/-- **Passing tokens is moving forward** among the same tokens. -/
theorem Reaches.exists_moveTo (hn : n ≤ tape.tokens.length) (h : (tape.moveTo n).Reaches after) :
    n ≤ after.position ∧ after.position ≤ tape.tokens.length ∧
      after = tape.moveTo after.position := by
  have htokens : after.tokens = tape.tokens := by rw [h.tokens_eq, tokens_moveTo]
  have hposition : (tape.moveTo n).position = n := by simp [moveTo, position, hn]
  have hlength := after.position_add_remaining
  have hlengthBefore := (tape.moveTo n).position_add_remaining
  have hle := h.remaining_le
  rw [htokens] at hlength
  rw [hposition, tokens_moveTo] at hlengthBefore
  refine ⟨by omega, by omega, ?_⟩
  have hafter := after.moveTo_position
  rw [moveTo, htokens] at hafter
  exact hafter.symm

end Tape

/-! ### Lists with commas -/

namespace Parse

variable {α : Type} {item : Parse α} {close : Punctuation} {tape after : Tape}

/-- One round of a list: an item and the comma after it. -/
def Round (item : Parse α) (close : Punctuation) (tape after : Tape) : Prop :=
  ∃ value middle mark, item tape = .ok value middle ∧
    expect (.eitherMark .comma close) middle = .ok mark after ∧ mark.isMark close = false

/-- The last round of a list: an item and the mark after it. -/
def lastRound (item : Parse α) (close : Punctuation) : Parse Token := do
  let _ ← item
  expect (.eitherMark .comma close)

/-- A round passes a token, the comma. -/
theorem Round.shorter [Lawful item] (h : Round item close tape after) :
    after.remaining < tape.remaining := by
  obtain ⟨value, middle, mark, hitem, hmark, -⟩ := h
  have hle := (Lawful.reaches_of_ok hitem).remaining_le
  have hlt := Consumes.shorter hmark
  omega

theorem wellFounded_round (item : Parse α) [Lawful item] (close : Punctuation) :
    WellFounded fun after tape => Round item close tape after :=
  Subrelation.wf (fun h => h.shorter) (InvImage.wf Tape.remaining Nat.lt_wfRel.wf)

/-- **A list is read in rounds**, and ends where the last of them does. -/
theorem exists_rounds (item : Parse α) [Lawful item] (close : Punctuation) (tape : Tape) :
    ∃ last, ReflTransGen (Round item close) tape last ∧
      (∀ after, ¬Round item close last after) ∧
      endTape (separated item close tape) = endTape (lastRound item close last) := by
  fun_induction separated item close tape with
  | case1 tape diagnostic after hitem =>
    refine ⟨tape, .refl, ?_, ?_⟩
    · rintro later ⟨value, middle, mark, hvalue, -⟩
      rw [hitem] at hvalue
      cases hvalue
    · rw [lastRound, bind_apply, hitem]
      rfl
  | case2 tape value middle hitem diagnostic after hmark =>
    refine ⟨tape, .refl, ?_, ?_⟩
    · rintro later ⟨value', middle', mark, hvalue, hcomma, -⟩
      rw [hitem] at hvalue
      cases hvalue
      rw [hmark] at hcomma
      cases hcomma
    · rw [lastRound, bind_apply, hitem]
      simp only [hmark]
      rfl
  | case3 tape value middle hitem mark after hmark hclose =>
    refine ⟨tape, .refl, ?_, ?_⟩
    · rintro later ⟨value', middle', mark', hvalue, hcomma, hopen⟩
      rw [hitem] at hvalue
      cases hvalue
      rw [hmark] at hcomma
      cases hcomma
      rw [hclose] at hopen
      cases hopen
    · rw [lastRound, bind_apply, hitem]
      simp only [hmark]
      rfl
  | case4 tape value middle hitem mark after hmark hclose diagnostic later hmore ih =>
    obtain ⟨last, hrounds, hlast, hend⟩ := ih
    rw [hmore] at hend
    exact ⟨last, .head ⟨value, middle, mark, hitem, hmark, by simpa using hclose⟩ hrounds, hlast,
      hend⟩
  | case5 tape value middle hitem mark after hmark hclose values later hmore ih =>
    obtain ⟨last, hrounds, hlast, hend⟩ := ih
    rw [hmore] at hend
    exact ⟨last, .head ⟨value, middle, mark, hitem, hmark, by simpa using hclose⟩ hrounds, hlast,
      hend⟩

end Parse

/-! ### Bodies and files -/

theorem Place.wellFounded_step : WellFounded fun next place : Place => place.step = some next :=
  Subrelation.wf size_step (InvImage.wf Place.size Nat.lt_wfRel.wf)

namespace Statement

/-- **A statement moves forward**, by at least one token where there is one. -/
theorem exists_moveTo (tokens : List Token) (n : Nat) (statement : Statement)
    (hn : n ≤ tokens.length) :
    ∃ m, (statement.read ((Tape.ofTokens tokens).moveTo n)).tape =
        (Tape.ofTokens tokens).moveTo m ∧
      n ≤ m ∧ m ≤ tokens.length ∧ (n < tokens.length → n < m) := by
  have hreach := Tree.reaches_read statement ((Tape.ofTokens tokens).moveTo n)
  obtain ⟨hforward, hwithin, hafter⟩ := hreach.exists_moveTo (by exact hn)
  refine ⟨_, hafter, hforward, hwithin, fun hleft => ?_⟩
  -- fewer tokens are left, and together with those passed they are as many as before
  have hremaining : ((Tape.ofTokens tokens).moveTo n).remaining = tokens.length - n := by
    simp [Tape.moveTo, Tape.remaining, Tape.tokens, Tape.ofTokens]
  have hpos : 0 < ((Tape.ofTokens tokens).moveTo n).remaining := by omega
  have hshorter := statement.read_shorter hpos
  have hlength := (statement.read ((Tape.ofTokens tokens).moveTo n)).tape.position_add_remaining
  have htokens : (statement.read ((Tape.ofTokens tokens).moveTo n)).tape.tokens = tokens := by
    rw [hreach.tokens_eq, Tape.tokens_moveTo]
    rfl
  rw [htokens] at hlength
  omega

end Statement

/-- A file is read to its end, and every token is passed once. -/
theorem Tree.readFrom_ofTokens (tokens : List Token) :
    (readFrom {} (.ofTokens tokens)).2 = ⟨tokens.reverse, []⟩ := by
  obtain ⟨last, hsteps, hlast, hrest⟩ := steps_readFrom {} (.ofTokens tokens)
  have hreach : (Tape.ofTokens tokens).Reaches (readFrom {} (.ofTokens tokens)).2 := by
    rw [← hlast]
    exact (Place.reaches_steps hsteps).trans last.reaches_skipBreaks
  have htokens := hreach.tokens_eq
  rw [Tape.tokens, hrest, List.append_nil, Tape.tokens] at htokens
  have hseen : (readFrom {} (.ofTokens tokens)).2.seen = tokens.reverse := by
    rw [← List.reverse_reverse (readFrom {} (.ofTokens tokens)).2.seen, htokens]
    rfl
  rw [← hseen, ← hrest]

/-- **Reading progresses and ends.** Whatever the tokens, and however their kinds and words
disagree: a statement read from any place stays among the tokens, does not go back, and passes a
token where there is one; the rounds of a list and the steps of bodies and files cannot go on
forever, and lists, bodies and files are read in them; a file is read to its last token, and each
token has then been passed once. -/
theorem reading_progresses :
    (∀ (tokens : List Token) (n : Nat) (statement : Statement), n ≤ tokens.length →
      ∃ m, (statement.read ((Tape.ofTokens tokens).moveTo n)).tape =
          (Tape.ofTokens tokens).moveTo m ∧
        n ≤ m ∧ m ≤ tokens.length ∧ (n < tokens.length → n < m)) ∧
      (∀ {α : Type} (item : Parse α) [Lawful item] (close : Punctuation),
        (WellFounded fun after tape => Round item close tape after) ∧
          ∀ tape, ∃ last, ReflTransGen (Round item close) tape last ∧
            (∀ after, ¬Round item close last after) ∧
            endTape (separated item close tape) = endTape (lastRound item close last)) ∧
      (WellFounded fun next place : Place => place.step = some next) ∧
      (∀ (tree : Tree) (top : Frame) (below : List Frame) (errors : List Diagnostic) (tape : Tape),
        Place.Steps ⟨top :: below, tree.withErrors errors, tape⟩
          ⟨[], tree.add (top.run below errors tape), (top.run below errors tape).tape⟩) ∧
      ∀ tokens : List Token,
        (Tree.readFrom {} (.ofTokens tokens)).2 = ⟨tokens.reverse, []⟩ ∧
          ∃ last, (Place.start tokens).Steps ⟨[], Tree.ofTokens tokens, last⟩ ∧
            Place.step ⟨[], Tree.ofTokens tokens, last⟩ = none := by
  refine ⟨Statement.exists_moveTo, ?_, Place.wellFounded_step, ?_, ?_⟩
  · intro α item hitem close
    exact ⟨wellFounded_round item close, exists_rounds item close⟩
  · intro tree top below errors tape
    exact top.steps_run tree below errors tape
  · intro tokens
    obtain ⟨last, hsteps, hlast, hrest⟩ := Tree.steps_readFrom {} (.ofTokens tokens)
    exact ⟨Tree.readFrom_ofTokens tokens, last, hsteps, Tree.step_of_end (hlast ▸ hrest)⟩

/-- Tokens whose kinds say something else than their words. -/
def mistakenKinds : List Token :=
  [⟨.lineEnd, ⟨7, 7⟩, "message"⟩, ⟨.number, ⟨1, 1⟩, "message"⟩, ⟨.text, ⟨1, 1⟩, "M"⟩,
   ⟨.lineEnd, ⟨2, 0⟩, "\x7b"⟩, ⟨.text, ⟨1, 1⟩, "\x7d"⟩, ⟨.keyword, ⟨9, 9⟩, "\n"⟩]

/-- A message is read from the second token on, over a brace that passes for a line break, up to
the token behind its last brace. The lists of options and of reserved numbers are read in rounds. -/
theorem reading_progresses_mistakenKinds :
    (∃ m, (Statement.read .message ((Tape.ofTokens mistakenKinds).moveTo 1)).tape =
        (Tape.ofTokens mistakenKinds).moveTo m ∧
      m = 5 ∧ (Tree.readFrom {} (.ofTokens mistakenKinds)).2 = ⟨mistakenKinds.reverse, []⟩) ∧
    (WellFounded fun after tape => Round listedOption .closeBracket tape after) ∧
    WellFounded fun after tape => Round (reservedRange .fieldNumber) .semicolon tape after := by
  refine ⟨?_, (reading_progresses.2.1 _ _).1, (reading_progresses.2.1 _ _).1⟩
  obtain ⟨m, htape, -, hwithin, -⟩ := reading_progresses.1 mistakenKinds 1 .message (by decide)
  refine ⟨m, htape, ?_, (reading_progresses.2.2.2.2 mistakenKinds).1⟩
  have hposition : (Statement.read .message ((Tape.ofTokens mistakenKinds).moveTo 1)).tape.position
      = 5 := by decide +kernel
  rw [htape] at hposition
  simpa [Tape.moveTo, Tape.position, Tape.tokens, Tape.ofTokens, hwithin] using hposition

end ProtoSchema
