import ProtoSchema.Statement.Block

/-!
# What a parse yields

A parse that ends with a value splits the tokens to come in two: those it passed and those it left.
`Parse.Yields` says how, and there is one law for each way to build a parse. What a statement
accepts is then read off its definition by rewriting.

* `Parse.exists_yields`: a parse that ends with a value yields it from some tokens.
* `Parse.yields_bind`: a sequence yields from the tokens of its parts, one after the other.
* `Parse.yields_expect`, `Parse.yields_accept?`, `Parse.yields_skipBreaks`: the steps.
-/

namespace ProtoSchema.Parse

variable {α β : Type} {seen words rest : List Token} {token : Token}

/-- A parse that starts behind the tokens `seen` passes `words` and stops in front of `rest`. -/
def Yields (parse : Parse α) (seen words : List Token) (value : α) (rest : List Token) : Prop :=
  parse ⟨seen, words ++ rest⟩ = .ok value ⟨words.reverse ++ seen, rest⟩

/-- What comes next satisfies a test, if anything comes next. -/
def Next (test : Token → Prop) (rest : List Token) : Prop :=
  ∀ token ∈ rest.head?, test token

@[simp] theorem next_nil (test : Token → Prop) : Next test [] := by
  simp [Next]

@[simp] theorem next_cons (test : Token → Prop) : Next test (token :: rest) ↔ test token := by
  simp [Next]

theorem next_left {test : Token → Prop} (h : Next test (words ++ rest)) : Next test words := by
  intro token htoken
  exact h token (by simp [Option.mem_def.1 htoken])

/-- **A value comes from tokens that were passed.** -/
theorem exists_yields {parse : Parse α} [Lawful parse] {tape after : Tape} {value : α}
    (h : parse tape = .ok value after) :
    ∃ words, tape = ⟨tape.seen, words ++ after.rest⟩ ∧
      after = ⟨words.reverse ++ tape.seen, after.rest⟩ ∧
      parse.Yields tape.seen words value after.rest := by
  obtain ⟨words, hrest, hseen⟩ := Lawful.reaches_of_ok h
  have htape : tape = ⟨tape.seen, words ++ after.rest⟩ := by rw [← hrest]
  have hafter : after = ⟨words.reverse ++ tape.seen, after.rest⟩ := by rw [← hseen]
  refine ⟨words, htape, hafter, ?_⟩
  rw [Yields, ← htape, ← hafter]
  exact h

@[simp] theorem yields_pure {value value' : α} :
    (pure value : Parse α).Yields seen words value' rest ↔ words = [] ∧ value' = value := by
  change EStateM.Result.ok value _ = _ ↔ _
  simp only [EStateM.Result.ok.injEq, Tape.mk.injEq]
  constructor
  · rintro ⟨rfl, -, hrest⟩
    exact ⟨by simpa using hrest, rfl⟩
  · rintro ⟨rfl, rfl⟩
    simp

/-- **A sequence yields from the tokens of its parts.** The second part starts behind what the
first has passed. -/
theorem yields_bind {parse : Parse α} {next : α → Parse β} [Lawful parse]
    [∀ value, Lawful (next value)] {value : β} :
    (parse >>= next).Yields seen words value rest ↔
      ∃ first middle second, words = first ++ second ∧
        parse.Yields seen first middle (second ++ rest) ∧
        (next middle).Yields (first.reverse ++ seen) second value rest := by
  constructor
  · intro h
    rw [Yields, bind_apply] at h
    split at h
    · rename_i middle between hmiddle
      obtain ⟨first, htape, hbetween, hfirst⟩ := exists_yields hmiddle
      obtain ⟨second, hsecond, -, hnext⟩ := exists_yields h
      simp only at hfirst hnext htape
      have hrest : between.rest = second ++ rest := congrArg Tape.rest hsecond
      have hwords : words ++ rest = (first ++ second) ++ rest := by
        rw [List.append_assoc, ← hrest]
        exact congrArg Tape.rest htape
      -- what the first part left is what the second part passed and left
      refine ⟨first, middle, second, List.append_cancel_right hwords, ?_, ?_⟩
      · rw [hrest] at hfirst
        exact hfirst
      · rw [hbetween] at hnext
        exact hnext
    · cases h
  · rintro ⟨first, middle, second, rfl, hfirst, hsecond⟩
    rw [Yields, bind_apply, List.append_assoc, hfirst]
    simp only
    rw [hsecond, List.reverse_append, List.append_assoc]

/-- A sequence that starts by passing one token. -/
theorem yields_bind_of_token {parse : Parse Token} {next : Token → Parse β} [Lawful parse]
    [∀ token, Lawful (next token)] {test : Token → Prop} {value : β}
    (hparse : ∀ {words token rest}, parse.Yields seen words token rest ↔
      words = [token] ∧ test token) :
    (parse >>= next).Yields seen words value rest ↔
      ∃ token others, words = token :: others ∧ test token ∧
        (next token).Yields (token :: seen) others value rest := by
  rw [yields_bind]
  constructor
  · rintro ⟨first, token, others, rfl, hfirst, hnext⟩
    obtain ⟨rfl, htest⟩ := hparse.1 hfirst
    exact ⟨token, others, rfl, htest, hnext⟩
  · rintro ⟨token, others, rfl, htest, hnext⟩
    exact ⟨[token], token, others, rfl, hparse.2 ⟨rfl, htest⟩, hnext⟩

/-- A sequence that starts by looking at what comes next. -/
theorem yields_bind_of_look {parse : Parse α} {next : α → Parse β} [Lawful parse]
    [∀ value, Lawful (next value)] {value : β} (test : α → List Token → Prop)
    (hparse : ∀ {words value rest}, parse.Yields seen words value rest ↔
      words = [] ∧ test value rest) :
    (parse >>= next).Yields seen words value rest ↔
      ∃ look, test look (words ++ rest) ∧ (next look).Yields seen words value rest := by
  rw [yields_bind]
  constructor
  · rintro ⟨first, look, others, rfl, hfirst, hnext⟩
    obtain ⟨rfl, htest⟩ := hparse.1 hfirst
    exact ⟨look, htest, hnext⟩
  · rintro ⟨look, htest, hnext⟩
    exact ⟨[], look, words, rfl, hparse.2 ⟨rfl, htest⟩, hnext⟩

@[simp] theorem yields_ite {test : Bool} {yes no : Parse α} {value : α} :
    (if test then yes else no).Yields seen words value rest ↔
      if test then yes.Yields seen words value rest else no.Yields seen words value rest := by
  cases test <;> rfl

/-- A step that passes nothing. -/
theorem stays_iff : Tape.mk seen (words ++ rest) = ⟨words.reverse ++ seen, rest⟩ ↔ words = [] := by
  rw [Tape.mk.injEq]
  constructor
  · intro h
    simpa using h.2
  · rintro rfl
    simp

@[simp] theorem yields_require {kept : Bool} {rule : Violation} {value : Unit} :
    (require kept rule token).Yields seen words value rest ↔ words = [] ∧ kept = true := by
  unfold Yields require
  cases kept <;> simp

@[simp] theorem yields_check {terminal : Terminal} :
    (check terminal).Yields seen words token rest ↔
      words = [] ∧ rest.head? = some token ∧ terminal.admits token = true := by
  unfold Yields check
  constructor
  · split
    · intro h; cases h
    · rename_i first others hrest
      split
      · rename_i hadmits
        rw [EStateM.Result.ok.injEq, stays_iff]
        rintro ⟨rfl, rfl⟩
        simp only [List.nil_append] at hrest
        exact ⟨rfl, by rw [hrest, List.head?_cons], hadmits⟩
      · intro h; cases h
  · rintro ⟨rfl, hhead, hadmits⟩
    cases rest with
    | nil => cases hhead
    | cons first others =>
      cases hhead
      simp [hadmits]

@[simp] theorem yields_expect {terminal : Terminal} :
    (expect terminal).Yields seen words token rest ↔
      words = [token] ∧ terminal.admits token = true := by
  constructor
  · intro h
    obtain ⟨hadmits, others, hrest, hafter⟩ := expect_eq_ok h
    simp only at hrest
    rw [hrest, Tape.advance, Tape.mk.injEq] at hafter
    rw [← hafter.2, ← List.singleton_append] at hrest
    exact ⟨List.append_cancel_right hrest, hadmits⟩
  · rintro ⟨rfl, hadmits⟩
    simp [Yields, expect, check, hadmits, Tape.advance]

theorem takeIf_cons {test : Token → Bool} (h : test token = true) :
    Tape.takeIf ⟨seen, token :: rest⟩ test = (some token, ⟨token :: seen, rest⟩) := by
  simp [Tape.takeIf, Tape.peek?, Tape.advance, Option.filter, h]

theorem takeIf_of_next {test : Token → Bool} (h : Next (test · = false) rest) :
    Tape.takeIf ⟨seen, rest⟩ test = (none, ⟨seen, rest⟩) := by
  cases rest with
  | nil => rfl
  | cons first others =>
    rw [next_cons] at h
    simp [Tape.takeIf, Tape.peek?, Option.filter, h]

/-- What a step may take, it takes; otherwise it stays. -/
theorem takeIf_cases (test : Token → Bool) (tokens : List Token) :
    (∃ token others, tokens = token :: others ∧ test token = true) ∨
      Next (test · = false) tokens := by
  cases tokens with
  | nil => exact .inr (next_nil _)
  | cons first others =>
    by_cases htest : test first = true
    · exact .inl ⟨first, others, rfl, htest⟩
    · exact .inr (by simpa using htest)

@[simp] theorem yields_accept? {test : Token → Bool} {value : Option Token} :
    (accept? test).Yields seen words value rest ↔
      (∃ token, words = [token] ∧ value = some token ∧ test token = true) ∨
        (words = [] ∧ value = none ∧ Next (test · = false) rest) := by
  unfold Yields accept?
  constructor
  · rcases takeIf_cases test (words ++ rest) with ⟨token, others, hrest, htest⟩ | hnext
    · rw [hrest, takeIf_cons htest, EStateM.Result.ok.injEq, Tape.mk.injEq]
      rintro ⟨rfl, -, rfl⟩
      rw [← List.singleton_append] at hrest
      exact .inl ⟨token, List.append_cancel_right hrest, rfl, htest⟩
    · rw [takeIf_of_next hnext, EStateM.Result.ok.injEq, stays_iff]
      rintro ⟨rfl, rfl⟩
      exact .inr ⟨rfl, rfl, hnext⟩
  · rintro (⟨token, rfl, rfl, htest⟩ | ⟨rfl, rfl, hnext⟩)
    · simp [takeIf_cons htest]
    · simp [takeIf_of_next hnext]

theorem skipWhile_append {test : Token → Bool} (hwords : ∀ token ∈ words, test token = true)
    (hrest : Next (test · = false) rest) :
    Tape.skipWhile ⟨seen, words ++ rest⟩ test = ⟨words.reverse ++ seen, rest⟩ := by
  have htake : rest.takeWhile test = [] ∧ rest.dropWhile test = rest := by
    cases rest with
    | nil => simp
    | cons first others =>
      rw [next_cons] at hrest
      simp [hrest]
  simp only [Tape.skipWhile, List.takeWhile_append_of_pos hwords,
    List.dropWhile_append_of_pos hwords, htake, List.append_nil]

theorem next_dropWhile (test : Token → Bool) (tokens : List Token) :
    Next (test · = false) (tokens.dropWhile test) := by
  intro token htoken
  have h := List.head?_dropWhile_not test tokens
  rw [Option.mem_def.1 htoken] at h
  simpa using h

/-- What a run of passed tokens is: all of it satisfies the test, and what comes next does not. -/
theorem skipWhile_eq_iff {test : Token → Bool} :
    Tape.skipWhile ⟨seen, words ++ rest⟩ test = ⟨words.reverse ++ seen, rest⟩ ↔
      (∀ token ∈ words, test token = true) ∧ Next (test · = false) rest := by
  constructor
  · intro h
    simp only [Tape.skipWhile, Tape.mk.injEq, List.append_left_inj, List.reverse_inj] at h
    refine ⟨?_, ?_⟩
    · rw [← h.1]
      exact List.all_eq_true.1 List.all_takeWhile
    · rw [← h.2]
      exact next_dropWhile _ _
  · rintro ⟨hwords, hrest⟩
    exact skipWhile_append hwords hrest

@[simp] theorem yields_skipBreaks {value : Unit} :
    skipBreaks.Yields seen words value rest ↔
      (∀ token ∈ words, token.isLineEnd = true) ∧ Next (·.isLineEnd = false) rest := by
  unfold Yields skipBreaks Tape.skipBreaks
  rw [EStateM.Result.ok.injEq, skipWhile_eq_iff]
  simp

@[simp] theorem yields_takeUntil {test : Token → Bool} {value : List Token} :
    (takeUntil test).Yields seen words value rest ↔
      value = words ∧ (∀ token ∈ words, test token = false) ∧ Next (test · = true) rest := by
  unfold Yields takeUntil
  rw [EStateM.Result.ok.injEq, skipWhile_eq_iff]
  simp only [Bool.not_eq_true', Bool.not_eq_false']
  refine and_congr_left ?_
  rintro ⟨hwords, hrest⟩
  -- what is passed stops at the first token that satisfies the test
  have htake : (words ++ rest).takeWhile (!test ·) = words := by
    have hskip := @skipWhile_append [] words rest (!test ·)
      (by simpa using hwords) (by simpa using hrest)
    simpa [Tape.skipWhile] using congrArg Tape.seen hskip
  rw [htake, eq_comm]

@[simp] theorem yields_commentOpener {mark : OpenComment} {test : String → Bool} :
    (commentOpener mark test).Yields seen words token rest ↔
      words = [token] ∧ test token.lexeme = true := by
  unfold Yields commentOpener
  constructor
  · rcases takeIf_cases (fun token => test token.lexeme) (words ++ rest) with
      ⟨first, others, hrest, htest⟩ | hnext
    · rw [hrest, takeIf_cons htest]
      simp only [EStateM.Result.ok.injEq, Tape.mk.injEq]
      rintro ⟨rfl, -, rfl⟩
      rw [← List.singleton_append] at hrest
      exact ⟨List.append_cancel_right hrest, htest⟩
    · rw [takeIf_of_next hnext]
      intro h; cases h
  · rintro ⟨rfl, htest⟩
    rw [List.singleton_append, takeIf_cons htest]
    rfl

/-- A step that passes the next token whatever it is, and fails only where there is none. -/
theorem yields_peek {fault : Tape → Diagnostic} :
    Yields (fun tape => match tape.peek? with
      | some token => .ok token tape.advance
      | none => .error (fault tape) tape) seen words token rest ↔ words = [token] := by
  unfold Yields
  rcases hrest : words ++ rest with _ | ⟨first, others⟩
  · rw [List.append_eq_nil_iff] at hrest
    simp [hrest, Tape.peek?]
  · simp only [Tape.peek?, Tape.advance, List.head?_cons, EStateM.Result.ok.injEq, Tape.mk.injEq]
    rw [← List.singleton_append] at hrest
    constructor
    · rintro ⟨rfl, -, rfl⟩
      exact List.append_cancel_right hrest
    · rintro rfl
      simp at hrest
      simp [hrest]

@[simp] theorem yields_commentCloser {opener : Token} :
    (commentCloser opener).Yields seen words token rest ↔ words = [token] :=
  @yields_peek _ _ _ _ fun _ => ⟨.unterminatedComment, opener⟩

@[simp] theorem yields_anyToken : anyToken.Yields seen words token rest ↔ words = [token] :=
  @yields_peek _ _ _ _ fun tape => ⟨.missingStatement, tape.nearest⟩

@[simp] theorem yields_refuseMixed {test : Token → Bool} {value : Unit} :
    (refuseMixed test).Yields seen words value rest ↔ words = [] ∧ Next (test · = false) rest := by
  have hfilter : ∀ {tokens : List Token}, Next (test · = false) tokens →
      tokens.head?.filter test = none := by
    intro tokens h
    cases tokens with
    | nil => rfl
    | cons first others => simpa [Option.filter] using h
  unfold Yields refuseMixed Tape.peek?
  constructor
  · rcases takeIf_cases test (words ++ rest) with ⟨first, others, hrest, htest⟩ | hnext
    · simp [hrest, Option.filter, htest]
    · simp only [hfilter hnext, EStateM.Result.ok.injEq, stays_iff, true_and]
      rintro rfl
      exact ⟨rfl, hnext⟩
  · rintro ⟨rfl, hnext⟩
    rw [List.nil_append, hfilter hnext]
    rfl

/-- The word that makes a payload a stream comes next, and no closing parenthesis behind it. -/
def StreamNext (tokens : List Token) : Prop :=
  ∃ word next others, tokens = word :: next :: others ∧ word.lexeme = "stream" ∧
    next.isMark .closeParen = false

@[simp] theorem yields_streamWord {value : Option Token} :
    streamWord.Yields seen words value rest ↔
      (∃ word, words = [word] ∧ value = some word ∧ StreamNext (word :: rest)) ∨
        (words = [] ∧ value = none ∧ ¬ StreamNext rest) := by
  have hstream : ∀ tokens seen, StreamNext tokens → ∃ word others, tokens = word :: others ∧
      streamWord ⟨seen, tokens⟩ = .ok (some word) ⟨word :: seen, others⟩ := by
    rintro tokens seen ⟨word, next, others, rfl, hword, hnext⟩
    exact ⟨word, next :: others, rfl, by simp [streamWord, hword, hnext, Tape.advance]⟩
  have hplain : ∀ tokens seen, ¬ StreamNext tokens →
      streamWord ⟨seen, tokens⟩ = .ok none ⟨seen, tokens⟩ := by
    intro tokens seen h
    unfold streamWord
    split
    · rename_i word next others htokens
      simp only at htokens
      rw [if_neg]
      intro hboth
      exact h ⟨word, next, others, htokens, by simpa using hboth⟩
    · rfl
  unfold Yields
  constructor
  · by_cases h : StreamNext (words ++ rest)
    · obtain ⟨word, others, hrest, heq⟩ := hstream _ seen h
      rw [heq, EStateM.Result.ok.injEq, Tape.mk.injEq]
      rintro ⟨rfl, -, rfl⟩
      rw [hrest] at h
      rw [← List.singleton_append] at hrest
      exact .inl ⟨word, List.append_cancel_right hrest, rfl, h⟩
    · rw [hplain _ _ h, EStateM.Result.ok.injEq, stays_iff]
      rintro ⟨rfl, rfl⟩
      exact .inr ⟨rfl, rfl, h⟩
  · rintro (⟨word, rfl, rfl, h⟩ | ⟨rfl, rfl, h⟩)
    · obtain ⟨word', others, hrest, heq⟩ := hstream _ seen h
      cases hrest
      exact heq
    · exact hplain _ _ h

section Sequences

variable {next : Token → Parse β} [∀ token, Lawful (next token)]
  {after : Unit → Parse β} [∀ value, Lawful (after value)] {value : β} {test : Token → Bool}

theorem yields_expect_bind {terminal : Terminal} :
    (expect terminal >>= next).Yields seen words value rest ↔
      ∃ token others, words = token :: others ∧ terminal.admits token = true ∧
        (next token).Yields (token :: seen) others value rest :=
  yields_bind_of_token yields_expect

theorem yields_commentOpener_bind {mark : OpenComment} {opens : String → Bool} :
    (commentOpener mark opens >>= next).Yields seen words value rest ↔
      ∃ token others, words = token :: others ∧ opens token.lexeme = true ∧
        (next token).Yields (token :: seen) others value rest :=
  yields_bind_of_token yields_commentOpener

theorem yields_anyToken_bind :
    (anyToken >>= next).Yields seen words value rest ↔
      ∃ token others, words = token :: others ∧ True ∧
        (next token).Yields (token :: seen) others value rest :=
  yields_bind_of_token (by simp)

theorem yields_check_bind {terminal : Terminal} :
    (check terminal >>= next).Yields seen words value rest ↔
      ∃ token, ((words ++ rest).head? = some token ∧ terminal.admits token = true) ∧
        (next token).Yields seen words value rest :=
  yields_bind_of_look (fun token rest => rest.head? = some token ∧ _) yields_check

theorem yields_require_bind {kept : Bool} {rule : Violation} :
    (require kept rule token >>= after).Yields seen words value rest ↔
      kept = true ∧ (after ()).Yields seen words value rest := by
  rw [yields_bind_of_look (fun _ _ => kept = true) yields_require]
  exact ⟨fun ⟨_, h⟩ => h, fun h => ⟨(), h⟩⟩

theorem yields_refuseMixed_bind :
    (refuseMixed test >>= after).Yields seen words value rest ↔
      Next (test · = false) (words ++ rest) ∧ (after ()).Yields seen words value rest := by
  rw [yields_bind_of_look (fun _ rest => Next (test · = false) rest) yields_refuseMixed]
  exact ⟨fun ⟨_, h⟩ => h, fun h => ⟨(), h⟩⟩

theorem yields_skipBreaks_bind :
    (skipBreaks >>= after).Yields seen words value rest ↔
      ∃ breaks others, words = breaks ++ others ∧ (∀ token ∈ breaks, token.isLineEnd = true) ∧
        Next (·.isLineEnd = false) (others ++ rest) ∧
        (after ()).Yields (breaks.reverse ++ seen) others value rest := by
  simp only [yields_bind, yields_skipBreaks, and_assoc]
  constructor
  · rintro ⟨breaks, _, others, h⟩
    exact ⟨breaks, others, h⟩
  · rintro ⟨breaks, others, h⟩
    exact ⟨breaks, (), others, h⟩

theorem yields_accept?_bind {next : Option Token → Parse β} [∀ token, Lawful (next token)] :
    (accept? test >>= next).Yields seen words value rest ↔
      (∃ token others, words = token :: others ∧ test token = true ∧
        (next (some token)).Yields (token :: seen) others value rest) ∨
      (Next (test · = false) (words ++ rest) ∧ (next none).Yields seen words value rest) := by
  rw [yields_bind]
  constructor
  · rintro ⟨first, taken, others, rfl, hfirst, hnext⟩
    rcases yields_accept?.1 hfirst with ⟨token, rfl, rfl, htest⟩ | ⟨rfl, rfl, hlook⟩
    · exact .inl ⟨token, others, rfl, htest, hnext⟩
    · exact .inr ⟨hlook, hnext⟩
  · rintro (⟨token, others, rfl, htest, hnext⟩ | ⟨hlook, hnext⟩)
    · exact ⟨[token], some token, others, rfl,
        yields_accept?.2 (.inl ⟨token, rfl, rfl, htest⟩), hnext⟩
    · exact ⟨[], none, words, rfl, yields_accept?.2 (.inr ⟨rfl, rfl, hlook⟩), hnext⟩

end Sequences

/-- Items in a row: one item and its mark, and more items unless the mark closes the row. -/
theorem separated_eq (item : Parse α) [Lawful item] (close : Punctuation) :
    separated item close = (do
      let value ← item
      let mark ← expect (.eitherMark .comma close)
      if mark.isMark close then pure [value]
      else
        let values ← separated item close
        pure (value :: values)) := by
  funext tape
  -- each `split` is on the result that the same step of the row has on the other side
  rw [separated]
  simp only [bind_apply]
  split
  · rename_i hitem
    rw [hitem]
  · rename_i value middle hitem
    simp only [hitem]
    split
    · rename_i hmark
      rw [hmark]
    · rename_i mark after hmark
      simp only [hmark]
      split
      · rfl
      · rw [bind_apply]
        split <;> rename_i hmore <;> rw [hmore]
        rfl

theorem yields_separated {item : Parse α} [Lawful item] {close : Punctuation} {values : List α} :
    (separated item close).Yields seen words values rest ↔
      ∃ first value mark others, words = first ++ mark :: others ∧
        item.Yields seen first value (mark :: (others ++ rest)) ∧
        (Terminal.eitherMark .comma close).admits mark = true ∧
        if mark.isMark close then others = [] ∧ values = [value]
        else ∃ more, values = value :: more ∧
          (separated item close).Yields (mark :: (first.reverse ++ seen)) others more rest := by
  -- the rest of the row, with the value in front
  have hmore : ∀ {seen others value}, (do
      let more ← separated item close
      pure (value :: more) : Parse (List α)).Yields seen others values rest ↔
        ∃ more, values = value :: more ∧
          (separated item close).Yields seen others more rest := by
    intro seen others value
    rw [yields_bind]
    constructor
    · rintro ⟨first, more, second, rfl, h, hpure⟩
      obtain ⟨rfl, rfl⟩ := yields_pure.1 hpure
      exact ⟨more, rfl, by simpa using h⟩
    · rintro ⟨more, rfl, h⟩
      exact ⟨others, more, [], by simp, by simpa using h, by simp⟩
  conv => lhs; rw [separated_eq, yields_bind]
  simp only [yields_expect_bind, yields_ite, yields_pure, hmore]
  constructor
  · rintro ⟨first, value, _, rfl, hitem, mark, others, rfl, hmark, h⟩
    exact ⟨first, value, mark, others, rfl, hitem, hmark, h⟩
  · rintro ⟨first, value, mark, others, rfl, hitem, hmark, h⟩
    exact ⟨first, value, _, rfl, hitem, mark, others, rfl, hmark, h⟩

/-- The end of a range is passed if it is in the domain and not before the start, or no number. -/
theorem yields_requireRangeEnd {domain : NumberDomain} {first stop : Token} :
    (requireRangeEnd domain first stop).Yields seen words () rest ↔
      words = [] ∧ ((Lexeme.integer? stop.lexeme).isSome = true →
        domain.contains stop.integerValue = true ∧ first.integerValue ≤ stop.integerValue) := by
  rw [requireRangeEnd, yields_ite, requireIn, yields_require_bind, yields_require, yields_pure]
  split
  · rename_i hsome
    simp [hsome, and_left_comm]
  · rename_i hnone
    simp [hnone]

end ProtoSchema.Parse
