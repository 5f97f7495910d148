import Mathlib.Data.List.Induction
import ProtoSchema.Proofs.CommentTokens
import ProtoSchema.Schema.Parsed
import ProtoSchema.Text.Lookahead

/-!
# What a reader gives, whatever is asked of it

A reader may be asked for characters and for its end in any order, and it looks ahead for the end as
well as behind carriage returns. None of this shows in its answers: they are those of a reader
without look-ahead, so that the characters are those of the text with its line breaks unified, and
the place is counted along the characters that were read.

* `Reader.answers`: what a reader without look-ahead answers to calls in a row.
* `PeekingReader.call_eq`, `PeekingReader.run_eq`: one call, and calls in a row, are answered so.
* `PeekingReader.Alike`: readers that no calls can tell apart.
* `PeekingReader.Obeys`: what calls to a reader of a text lead to.
* `reader_law`: all readers obey, and unified line breaks change neither tokens nor files.
-/

namespace ProtoSchema

/-! ### Places along a text -/

/-- The place behind a text: a line for each line feed, a column for each character since. -/
theorem Position.foldl_after_start (text : List Char) :
    text.foldl Position.after .start =
      ⟨1 + text.count '\n', (text.reverse.takeWhile (· ≠ '\n')).length⟩ := by
  induction text using List.reverseRecOn with
  | nil => rfl
  | append_singleton text c ih =>
    rw [List.foldl_append, ih, List.foldl_cons, List.foldl_nil, Position.after]
    by_cases hbreak : c = '\n'
    · simp [hbreak, Nat.add_assoc]
    · simp [hbreak]

/-! ### Looking ahead -/

namespace Lookahead

variable {chars after : Lookahead} {c : Char}

/-- Looking at a character does not take it. -/
theorem peek_eq (chars : Lookahead) :
    chars.peek.1 = chars.unread.head? ∧ chars.peek.2.unread = chars.unread := by
  obtain ⟨peeked, rest, hended⟩ := chars
  -- nothing, the end of the text or a character has been looked at
  rcases peeked with - | - | c
  · cases rest <;> exact ⟨rfl, rfl⟩
  · obtain rfl := hended rfl
    exact ⟨rfl, rfl⟩
  · exact ⟨rfl, rfl⟩

theorem take_eq (chars : Lookahead) :
    chars.take.1 = chars.unread.head? ∧ chars.take.2.unread = chars.unread.tail := by
  obtain ⟨peeked, rest, hended⟩ := chars
  rcases peeked with - | - | c
  · cases rest <;> exact ⟨rfl, rfl⟩
  · obtain rfl := hended rfl
    exact ⟨rfl, rfl⟩
  · exact ⟨rfl, rfl⟩

theorem unread_of_take_none (h : chars.take = (none, after)) :
    chars.unread = [] ∧ after.unread = [] := by
  obtain ⟨hfirst, hrest⟩ := chars.take_eq
  rw [h] at hfirst hrest
  have hnil := List.head?_eq_none_iff.1 hfirst.symm
  exact ⟨hnil, by rw [hrest, hnil]; rfl⟩

theorem unread_of_take_some (h : chars.take = (some c, after)) :
    chars.unread = c :: after.unread := by
  obtain ⟨hfirst, hrest⟩ := chars.take_eq
  rw [h] at hfirst hrest
  rw [hrest]
  exact List.eq_cons_of_mem_head? hfirst.symm

/-- A character that fails the test is looked at only. -/
theorem unread_takeIf (chars : Lookahead) (test : Char → Bool) :
    (chars.takeIf test).2.unread =
      if chars.unread.head?.any test then chars.unread.tail else chars.unread := by
  obtain ⟨hpeek, hkept⟩ := chars.peek_eq
  unfold takeIf
  split
  · rename_i c hfilter
    obtain ⟨hfound, htest⟩ := Option.filter_eq_some_iff.1 hfilter
    rw [(take_eq _).2, hkept, ← hpeek, hfound, Option.any_some, if_pos htest]
  · rename_i hfilter
    have hnone : ¬(chars.unread.head?.any test = true) := by
      rw [← hpeek]
      cases hfound : chars.peek.1 with
      | none => simp
      | some c => simpa [hfound] using hfilter
    rw [hkept, if_neg hnone]

end Lookahead

/-! ### Readers without look-ahead -/

open PeekingReader (Call Answer)

namespace Reader

/-- What a reader without look-ahead answers. It stays as it is unless it reads a character. -/
def answer (reader : Reader) : Call → Answer × Reader
  | .next =>
    match reader.next? with
    | some (c, after) => (.character c, after)
    | none => (.ended reader.position, reader)
  | .atEnd => (.atEnd reader.atEnd, reader)

/-- The answers to questions in order, each with the place after it, and the reader after all. -/
def answers (reader : Reader) : List Call → List (Answer × Position) × Reader
  | [] => ([], reader)
  | first :: rest =>
    let (answer, after) := reader.answer first
    let (others, last) := after.answers rest
    ((answer, after.position) :: others, last)

variable {reader after : Reader} {c : Char}

theorem next?_of_return (rest : List Char) (position : Position) :
    next? ⟨'\r' :: rest, position⟩ =
      some ('\n', ⟨if rest.head?.any (· == '\n') then rest.tail else rest,
        position.after '\n'⟩) := by
  cases rest with
  | nil => rfl
  | cons c rest =>
    by_cases hfeed : c = '\n'
    · rw [hfeed]
      rfl
    · simp [next?, hfeed]

theorem next?_of_ne (h : c ≠ '\r') (rest : List Char) (position : Position) :
    next? ⟨c :: rest, position⟩ = some (c, ⟨rest, position.after c⟩) := by
  unfold next?
  split <;> simp_all

theorem position_of_next? (h : reader.next? = some (c, after)) :
    after.position = reader.position.after c := by
  unfold next? at h
  split at h <;> cases h <;> rfl

theorem characters_of_none (h : reader.next? = none) : reader.characters = [] := by
  rw [characters]
  split
  · rfl
  · simp_all

theorem next?_eq_none_iff (reader : Reader) : reader.next? = none ↔ reader.atEnd = true := by
  obtain ⟨rest, position⟩ := reader
  unfold next? atEnd
  split <;> simp_all

theorem answers_of_none (h : reader.next? = none) (rest : List Call) :
    reader.answers (.next :: rest) =
      ((.ended reader.position, reader.position) :: (reader.answers rest).1,
        (reader.answers rest).2) := by
  simp only [answers, answer, h]

theorem answers_of_some (h : reader.next? = some (c, after)) (rest : List Call) :
    reader.answers (.next :: rest) =
      ((.character c, after.position) :: (after.answers rest).1, (after.answers rest).2) := by
  simp only [answers, answer, h]

end Reader

/-- The characters among answers, with their places. -/
def charactersRead (answers : List (Answer × Position)) : List (Char × Position) :=
  answers.filterMap fun row => row.1.character?.map (·, row.2)

/-- Calls read the characters of the reader from the first one on, as many as are asked for. -/
theorem Reader.charactersRead_answers (reader : Reader) (calls : List Call) :
    charactersRead (reader.answers calls).1 = reader.characters.take (calls.count .next) := by
  induction calls generalizing reader with
  | nil => rfl
  | cons first rest ih =>
    cases first with
    | atEnd => exact ih reader
    | next =>
      rw [List.count_cons_self]
      cases hnext : reader.next? with
      | none =>
        -- nothing is read now, and nothing later either
        have hrest := ih reader
        rw [characters_of_none hnext, List.take_nil] at hrest ⊢
        rw [answers_of_none hnext]
        exact hrest
      | some read =>
        obtain ⟨c, after⟩ := read
        rw [answers_of_some hnext, characters_of_next? hnext, List.take_succ_cons, ← ih after]
        rfl

/-- The place of a reader is counted along the characters that calls read. -/
theorem Reader.position_answers (reader : Reader) (calls : List Call) :
    (reader.answers calls).2.position =
      ((charactersRead (reader.answers calls).1).map Prod.fst).foldl Position.after
        reader.position := by
  induction calls generalizing reader with
  | nil => rfl
  | cons first rest ih =>
    cases first with
    | atEnd => exact ih reader
    | next =>
      cases hnext : reader.next? with
      | none =>
        rw [answers_of_none hnext]
        exact ih reader
      | some read =>
        obtain ⟨c, after⟩ := read
        have hafter := ih after
        rw [position_of_next? hnext] at hafter
        rw [answers_of_some hnext]
        exact hafter

namespace PeekingReader

variable {reader reader' : PeekingReader}

/-! ### Look-ahead does not show -/

/-- **A reader gives what the plain reader gives**, and stands for what is left of it. At the end of
the text it reports its place and stands for the same as before. -/
theorem next_cases (reader : PeekingReader) :
    (reader.plain.next? = none ∧ reader.next.1 = .error reader.position ∧
        reader.next.2.plain = reader.plain) ∨
      ∃ c, reader.plain.next? = some (c, reader.next.2.plain) ∧ reader.next.1 = .ok c := by
  unfold next
  split
  · rename_i chars htake
    obtain ⟨hnil, hafter⟩ := Lookahead.unread_of_take_none htake
    exact .inl ⟨by rw [plain, hnil]; rfl, rfl, by rw [plain, plain, hnil, hafter]⟩
  · rename_i chars htake
    have hunread := Lookahead.unread_of_take_some htake
    refine .inr ⟨'\n', ?_, rfl⟩
    rw [plain, plain, hunread, Reader.next?_of_return, Lookahead.unread_takeIf]
  · rename_i c chars hreturn htake
    have hunread := Lookahead.unread_of_take_some htake
    refine .inr ⟨c, ?_, rfl⟩
    rw [plain, hunread, Reader.next?_of_ne hreturn]
    rfl

theorem plain_atEnd (reader : PeekingReader) : reader.atEnd.2.plain = reader.plain := by
  rw [plain, plain, atEnd, reader.chars.peek_eq.2]

theorem atEnd_fst (reader : PeekingReader) : reader.atEnd.1 = reader.plain.atEnd := by
  rw [atEnd, reader.chars.peek_eq.1, plain, Reader.atEnd]
  cases reader.chars.unread <;> rfl

/-- One call is answered as by the plain reader. -/
theorem call_eq (reader : PeekingReader) (question : Call) :
    ((reader.call question).1, (reader.call question).2.plain) = reader.plain.answer question := by
  cases question with
  | atEnd => rw [call, Reader.answer, plain_atEnd, atEnd_fst]
  | next =>
    rw [call, Reader.answer]
    rcases hread : reader.next with ⟨read, after⟩
    rcases reader.next_cases with ⟨hnone, herror, hplain⟩ | ⟨c, hsome, hok⟩
    · rw [hread] at herror hplain
      cases herror
      rw [hnone]
      exact Prod.ext rfl hplain
    · rw [hread] at hsome hok
      cases hok
      rw [hsome]

/-- **Calls in a row are answered as by the plain reader**, at the same places. -/
theorem run_eq (reader : PeekingReader) (calls : List Call) :
    ((reader.run calls).1, (reader.run calls).2.plain) = reader.plain.answers calls := by
  induction calls generalizing reader with
  | nil => rfl
  | cons first rest ih =>
    simp only [run, Reader.answers, ← call_eq, ← ih]
    rfl

/-- Readers that no calls can tell apart. -/
def Alike (reader reader' : PeekingReader) : Prop :=
  reader.position = reader'.position ∧ ∀ calls, (reader.run calls).1 = (reader'.run calls).1

theorem alike_of_plain (h : reader.plain = reader'.plain) : reader.Alike reader' := by
  refine ⟨congrArg Reader.position h, ?_⟩
  intro calls
  have hrun := reader.run_eq calls
  rw [h, ← reader'.run_eq calls] at hrun
  exact (Prod.mk.inj hrun).1

theorem atEnd_iff (reader : PeekingReader) :
    reader.atEnd.1 = true ↔ ∃ place, reader.next.1 = .error place := by
  rw [atEnd_fst, ← Reader.next?_eq_none_iff]
  rcases reader.next_cases with ⟨hnone, herror, -⟩ | ⟨c, hsome, hok⟩
  · simp [hnone, herror]
  · simp [hsome, hok]

theorem alike_of_error {place : Position} (h : reader.next.1 = .error place) :
    place = reader.position ∧ reader.next.2.Alike reader := by
  rcases reader.next_cases with ⟨-, herror, hplain⟩ | ⟨c, -, hok⟩
  · rw [h] at herror
    exact ⟨Except.error.inj herror, alike_of_plain hplain⟩
  · rw [h] at hok
    cases hok

/-- **What calls to a reader of a text lead to.** They read the first characters of the text with
its line breaks unified, as many as are asked for and there are, each at the place where the lexer
has it. The reader is then on the line and column that are counted along what was read. It says that
it is at the end exactly when there is no next character, and neither saying so nor failing to read
one can be told from any later answer or place. -/
structure Obeys (source : String) (calls : List Call) (read : List (Char × Position))
    (reader : PeekingReader) : Prop where
  characters : read = (Reader.ofString source).characters.take (calls.count .next)
  text : read.map Prod.fst = (unifyBreaks source.toList).take (calls.count .next)
  line : reader.position.line = 1 + (read.map Prod.fst).count '\n'
  column : reader.position.column = ((read.map Prod.fst).reverse.takeWhile (· ≠ '\n')).length
  atEnd_iff : reader.atEnd.1 = true ↔ ∃ place, reader.next.1 = .error place
  atEnd_alike : reader.atEnd.2.Alike reader
  next_alike (place : Position) :
    reader.next.1 = .error place → place = reader.position ∧ reader.next.2.Alike reader

theorem plain_ofString (source : String) : (ofString source).plain = Reader.ofString source := rfl

theorem obeys_run (source : String) (calls : List Call) :
    Obeys source calls (charactersRead ((ofString source).run calls).1)
      ((ofString source).run calls).2 := by
  have hrun := (ofString source).run_eq calls
  rw [plain_ofString] at hrun
  obtain ⟨hanswers, hplain⟩ := Prod.ext_iff.1 hrun
  have hread := (Reader.ofString source).charactersRead_answers calls
  have hposition := (Reader.ofString source).position_answers calls
  rw [← hanswers] at hread hposition
  rw [← hplain] at hposition
  have hplace := hposition.trans (Position.foldl_after_start _)
  exact {
    characters := hread
    text := by
      rw [hread, Reader.ofString, Reader.characters_eq, List.map_take,
        Lexer.map_fst_along]
    line := congrArg Position.line hplace
    column := congrArg Position.column hplace
    atEnd_iff := atEnd_iff _
    atEnd_alike := alike_of_plain (plain_atEnd _)
    next_alike := fun _ => alike_of_error }

end PeekingReader

/-! ### Texts with unified line breaks -/

theorem not_mem_unifyBreaks (text : List Char) : '\r' ∉ unifyBreaks text := by
  fun_induction unifyBreaks text with
  | case1 => simp
  | case2 rest ih => simpa using ih
  | case3 rest hfeed ih => simpa using ih
  | case4 c rest hboth hreturn ih =>
    rw [List.mem_cons, not_or]
    exact ⟨fun h => hreturn h.symm, ih⟩

theorem tokenize_unifyBreaks (source : String) :
    tokenize (.ofList (unifyBreaks source.toList)) = tokenize source := by
  rw [tokenize_eq_scan, tokenize_eq_scan, String.toList_ofList,
    unifyBreaks_of_not_mem (not_mem_unifyBreaks _)]

/-- **The law of readers.** However a reader of a text is asked for characters and for its end, it
obeys what is said in `PeekingReader.Obeys`. Hence a text and the text with its line breaks unified
have the same tokens at the same places, and describe the same file with the same diagnostics. -/
theorem reader_law (source : String) :
    (∀ calls : List Call,
      PeekingReader.Obeys source calls
        (charactersRead ((PeekingReader.ofString source).run calls).1)
        ((PeekingReader.ofString source).run calls).2) ∧
      tokenize (.ofList (unifyBreaks source.toList)) = tokenize source ∧
      parse (.ofList (unifyBreaks source.toList)) = parse source := by
  have htokens := tokenize_unifyBreaks source
  refine ⟨PeekingReader.obeys_run source, htokens, ?_⟩
  rw [parse, parse, Tree.ofSource, Tree.ofSource, htokens]

end ProtoSchema
