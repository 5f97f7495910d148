import ProtoSchema.Proofs.Words
import ProtoSchema.Token.Lexer

/-!
# The tokens of a text are regular

A text gives line breaks and words, and each word has the kind that its letters decide.

* `Lexer.regular_step`, `Lexer.regular_feed`: one character, and characters in a row.
* `regular_tokenize`: a whole text.
-/

namespace ProtoSchema

/-- A word is a mark if it is how one of the marks is written. -/
theorem Lexeme.isMark_iff (lexeme : String) :
    isMark lexeme = true ↔ ∃ mark : Punctuation, lexeme = mark.text := by
  constructor
  · intro h
    unfold isMark at h
    split at h
    · rename_i c hlexeme
      obtain ⟨mark, rfl⟩ := (isPunctuation_iff c).1 h
      refine ⟨mark, ?_⟩
      rw [mark.text_eq, ← String.toList_inj, hlexeme, String.toList_singleton]
    · cases h
  · rintro ⟨mark, rfl⟩
    cases mark <;> decide

theorem TokenKind.ofLexeme_singleton {c : Char} (h : isPunctuation c = true) :
    ofLexeme (String.singleton c) = punctuation := by
  obtain ⟨mark, rfl⟩ := (isPunctuation_iff c).1 h
  cases mark <;> decide

namespace Lexer

variable {lexer : Lexer}

theorem regular_flush : ∀ token ∈ lexer.flush.1, token.Regular := by
  unfold flush
  split
  · simp
  · rw [List.forall_mem_singleton]
    exact .inr rfl

theorem regular_step (c : Char) (position : Position) :
    ∀ token ∈ (lexer.step c position).1, token.Regular := by
  unfold step
  split
  · rw [List.forall_mem_append, List.forall_mem_singleton]
    exact ⟨regular_flush, .inl ⟨rfl, rfl⟩⟩
  · split
    · simp
    · split
      · exact regular_flush
      · split
        · rename_i hmark
          rw [List.forall_mem_append, List.forall_mem_singleton]
          exact ⟨regular_flush, .inr (TokenKind.ofLexeme_singleton hmark).symm⟩
        · simp

theorem regular_feed (characters : List (Char × Position)) :
    ∀ token ∈ (lexer.feed characters).1, token.Regular := by
  induction characters generalizing lexer with
  | nil => simp [feed]
  | cons character rest ih =>
    rw [feed, List.forall_mem_append]
    exact ⟨regular_step _ _, ih⟩

end Lexer

/-- **The tokens of a text are regular.** -/
theorem regular_tokenize (source : String) : ∀ token ∈ tokenize source, token.Regular := by
  rw [tokenize, List.forall_mem_append]
  exact ⟨Lexer.regular_feed _, Lexer.regular_flush⟩

end ProtoSchema
