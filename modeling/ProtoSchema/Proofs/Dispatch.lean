import ProtoSchema.Proofs.Grammar
import ProtoSchema.Proofs.Words

/-!
# The first word tells the statement

Reading chooses a statement by its first word alone. The choice agrees with the grammar: it is a
statement of the scope that may start with the word, and no other statement of the scope may.

* `Scope.statement?_cases`: what a word may start.
* `Scope.mem_members_of_statement?`: only statements of the scope are started.
* `Scope.statement?_of_mem_openers`, `Scope.statement?_of_type`, `Scope.statement?_of_constant`:
  each statement of the scope is started by its first word.
-/

namespace ProtoSchema.Scope

open Grammar

variable {scope : Scope} {statement : Statement} {lexeme : String}

/-- **What a word may start**: a comment, the statement of an opening word, or the statement of the
scope that starts with a name. -/
theorem statement?_cases (h : scope.statement? lexeme = some statement) :
    (Lexeme.opensLineComment lexeme = true ∧ statement = .comment .line) ∨
      (Lexeme.opensBlockComment lexeme = true ∧ statement = .comment .block) ∨
      (lexeme, statement) ∈ scope.openers ∨
      ((∀ other, (lexeme, other) ∉ scope.openers) ∧ scope.implicit? lexeme = some statement) := by
  unfold statement? at h
  split at h
  · rename_i hline
    exact .inl ⟨hline, (Option.some.inj h).symm⟩
  · split at h
    · rename_i hblock
      exact .inr (.inl ⟨hblock, (Option.some.inj h).symm⟩)
    · refine .inr (.inr ?_)
      cases hlookup : scope.openers.lookup lexeme with
      | some found =>
        rw [hlookup, Option.some_or, Option.some.injEq] at h
        subst h
        obtain ⟨before, after, hopeners, -⟩ := List.lookup_eq_some_iff.1 hlookup
        exact .inl (by rw [hopeners]; simp)
      | none =>
        rw [hlookup, Option.none_or] at h
        refine .inr ⟨fun other hother => ?_, h⟩
        simpa using List.lookup_eq_none_iff.1 hlookup _ hother

/-- What a name may start: a field of a message, a field of a oneof, or a constant of an enum. -/
theorem implicit?_cases (h : scope.implicit? lexeme = some statement) :
    (scope = message ∧ statement = .field true ∧ Lexeme.isTypeName lexeme = true) ∨
      (scope = oneof ∧ statement = .field false ∧ Lexeme.isTypeName lexeme = true ∧
        lexeme ∉ ["repeated", "optional"]) ∨
      (scope = enum ∧ statement = .constant ∧ Lexeme.isKeyword lexeme = false ∧
        Lexeme.isIdentifier lexeme = true) := by
  cases scope <;> simp only [implicit?, reduceCtorEq, Option.ite_none_right_eq_some,
    Option.some.injEq] at h
  · exact .inl ⟨rfl, h.2.symm, h.1⟩
  · exact .inr (.inl ⟨rfl, h.2.symm, by simpa using h.1⟩)
  · exact .inr (.inr ⟨rfl, h.2.symm, by simpa using h.1⟩)

/-- Only statements of the scope are started. -/
theorem mem_members_of_statement? (h : scope.statement? lexeme = some statement) :
    statement = .comment .line ∨ statement ∈ scope.members := by
  rcases statement?_cases h with ⟨-, rfl⟩ | ⟨-, rfl⟩ | hopener | ⟨-, himplicit⟩
  · exact .inl rfl
  · exact .inr (by cases scope <;> decide)
  · have hall : ∀ opener ∈ scope.openers, opener.2 ∈ scope.members := by cases scope <;> decide
    exact .inr (hall _ hopener)
  · rcases implicit?_cases himplicit with ⟨rfl, rfl, -⟩ | ⟨rfl, rfl, -⟩ | ⟨rfl, rfl, -⟩
    all_goals exact .inr (by decide)

/-- A block with a name starts with its own word. -/
theorem lexeme_of_namedBlock? {word : String} {kind : Node.Kind} {inner : Scope}
    (h : scope.statement? lexeme = some statement)
    (hblock : namedBlock? statement = some (word, kind, inner)) : lexeme = word := by
  rcases statement?_cases h with ⟨-, rfl⟩ | ⟨-, rfl⟩ | hopener | ⟨-, himplicit⟩
  · cases hblock
  · cases hblock
  · have hall : ∀ opener ∈ scope.openers, ∀ found ∈ namedBlock? opener.2, opener.1 = found.1 := by
      cases scope <;> decide
    exact hall _ hopener _ hblock
  · rcases implicit?_cases himplicit with ⟨-, rfl, -⟩ | ⟨-, rfl, -⟩ | ⟨-, rfl, -⟩
    all_goals cases hblock

/-- A field starts with a label, or with a type that no other statement starts with. -/
theorem type_of_field {labelled : Bool} (h : scope.statement? lexeme = some (.field labelled)) :
    labelled = true ∧ (Parse.labelKind? lexeme).isSome = true ∨ lexeme ∉ typeBars labelled := by
  rcases statement?_cases h with ⟨-, heq⟩ | ⟨-, heq⟩ | hopener | ⟨hother, himplicit⟩
  · cases heq
  · cases heq
  · refine .inl ?_
    have hall : ∀ opener ∈ scope.openers, opener.2 = .field labelled →
        labelled = true ∧ (Parse.labelKind? opener.1).isSome = true := by
      cases scope <;> cases labelled <;> decide
    exact hall _ hopener rfl
  -- a barred word opens a statement of a message, and a oneof refuses the labels
  · refine .inr ?_
    rcases implicit?_cases himplicit with ⟨rfl, heq, -⟩ | ⟨rfl, heq, -, hlabel⟩ | ⟨-, heq, -⟩
    · cases heq
      intro hbar
      simp only [typeBars, List.mem_cons, List.not_mem_nil, or_false] at hbar
      rcases hbar with rfl | rfl | rfl
      · exact hother (.reserved .fieldNumber) (by decide)
      · exact hother (.field true) (by decide)
      · exact hother (.field true) (by decide)
    · cases heq
      exact hlabel
    · cases heq

/-- A constant starts with a name that no other statement of an enum starts with. -/
theorem name_of_constant (h : scope.statement? lexeme = some .constant) :
    lexeme ∉ "reserved" :: Lexeme.keywords := by
  rcases statement?_cases h with ⟨-, heq⟩ | ⟨-, heq⟩ | hopener | ⟨hother, himplicit⟩
  · cases heq
  · cases heq
  · have hall : ∀ opener ∈ scope.openers, opener.2 ≠ .constant := by cases scope <;> decide
    exact absurd rfl (hall _ hopener)
  · rcases implicit?_cases himplicit with ⟨-, heq, -⟩ | ⟨-, heq, -⟩ | ⟨rfl, -, hkeyword, -⟩
    · cases heq
    · cases heq
    · rw [List.mem_cons, not_or]
      refine ⟨?_, by simpa [Lexeme.isKeyword] using hkeyword⟩
      rintro rfl
      exact hother (.reserved .enumValue) (by decide)

/-! ### Every statement of a scope is started by its first word -/

theorem statement?_of_opensLineComment (h : Lexeme.opensLineComment lexeme = true) :
    scope.statement? lexeme = some (.comment .line) := by
  rw [statement?, if_pos h]

theorem statement?_of_opensBlockComment (h : Lexeme.opensBlockComment lexeme = true) :
    scope.statement? lexeme = some (.comment .block) := by
  have hline : ¬ Lexeme.opensLineComment lexeme = true := by
    intro hline
    obtain ⟨rest, hrest⟩ := List.isPrefixOf_iff_prefix.1 h
    rw [Lexeme.opensLineComment, ← hrest] at hline
    simp [List.isPrefixOf] at hline
  rw [statement?, if_neg hline, if_pos h]

theorem statement?_of_mem_openers (h : (lexeme, statement) ∈ scope.openers) :
    scope.statement? lexeme = some statement := by
  have hall : ∀ opener ∈ scope.openers, scope.statement? opener.1 = some opener.2 := by
    cases scope <;> decide
  exact hall _ h

/-- A name that is no opening word starts what the scope makes of it. -/
theorem statement?_of_implicit? (hreference : Lexeme.isReference lexeme = true)
    (hopeners : lexeme ∉ scope.openers.map Prod.fst)
    (himplicit : scope.implicit? lexeme = some statement) :
    scope.statement? lexeme = some statement := by
  obtain ⟨hline, hblock⟩ := Lexeme.not_opens_of_isReference hreference
  have hlookup : scope.openers.lookup lexeme = none := by
    rw [List.lookup_eq_none_iff]
    intro opener hopener
    rw [bne_iff_ne]
    rintro rfl
    exact hopeners (List.mem_map_of_mem hopener)
  rw [statement?, if_neg (by simp [hline]), if_neg (by simp [hblock]), hlookup, Option.none_or,
    himplicit]

theorem statement?_of_type {labelled : Bool} (hscope : .field labelled ∈ scope.members)
    (htype : Lexeme.isTypeName lexeme = true) (hbars : lexeme ∉ typeBars labelled) :
    scope.statement? lexeme = some (.field labelled) := by
  have hboth := Bool.and_eq_true_iff.1 htype
  have hkeyword : lexeme ∉ Lexeme.keywords := by simpa [Lexeme.isKeyword] using hboth.1
  have hplace : scope = message ∧ labelled = true ∨ scope = oneof ∧ labelled = false := by
    cases scope <;> cases labelled <;> revert hscope <;> decide
  have hwords : ∀ word ∈ scope.openers.map Prod.fst,
      word ∈ Lexeme.keywords ∨ word ∈ typeBars labelled := by
    rcases hplace with ⟨rfl, rfl⟩ | ⟨rfl, rfl⟩ <;> decide
  -- the words that open a statement are keywords or barred, and the type is neither
  refine statement?_of_implicit? hboth.2 ?_ ?_
  · intro hopener
    exact (hwords lexeme hopener).elim hkeyword hbars
  · rcases hplace with ⟨rfl, rfl⟩ | ⟨rfl, rfl⟩
    · simp [implicit?, htype]
    · simp only [typeBars] at hbars
      simp [implicit?, htype, hbars]

theorem statement?_of_constant (hscope : .constant ∈ scope.members)
    (hname : Lexeme.isIdentifier lexeme = true) (hbars : lexeme ∉ "reserved" :: Lexeme.keywords) :
    scope.statement? lexeme = some .constant := by
  obtain rfl : scope = enum := by cases scope <;> revert hscope <;> decide
  have hwords : ∀ word ∈ enum.openers.map Prod.fst, word ∈ "reserved" :: Lexeme.keywords := by
    decide
  have hreference := Lexeme.isReference_of_isPath (Lexeme.isPath_of_isIdentifier hname)
  have hkeyword : Lexeme.isKeyword lexeme = false := by
    rw [List.mem_cons, not_or] at hbars
    simpa [Lexeme.isKeyword] using hbars.2
  refine statement?_of_implicit? hreference (fun h => hbars (hwords lexeme h)) ?_
  simp [implicit?, hkeyword, hname]

end ProtoSchema.Scope
