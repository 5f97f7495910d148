import Mathlib.Data.List.Basic
import Mathlib.Data.List.TakeWhile
import ProtoSchema.Proofs.Render
import ProtoSchema.Proofs.Words
import ProtoSchema.Token.Basic

/-!
# Literals read back

A text between quotes denotes the text, since its escapes are the ones that reading undoes; a number
in decimal denotes the number, since a positive one has no leading zero and is not taken for octal.

* `literal?_quoteIn`: quoting and reading are inverse, for either quote.
* `integer?_toString`: a number of 32 bits and its sign.
* `isNumber_toString`: the word of a number is of the kind of numbers.
-/

namespace ProtoSchema.Lexeme

/-! ### Texts between quotes -/

/-- A body between two equal quotes. -/
def enclose (q : Char) (body : List Char) : String := .ofList (q :: (body ++ [q]))

/-- How a character is written between two equal quotes. -/
def escapeIn (q c : Char) : List Char :=
  if c = '\\' then ['\\', '\\']
  else if c = q then ['\\', q]
  else if c = '\n' then ['\\', 'n']
  else if c = '\r' then ['\\', 'r']
  else [c]

/-- A text between two equal quotes. -/
def quoteIn (q : Char) (text : String) : String := enclose q (text.toList.flatMap (escapeIn q))

theorem quote_eq (text : String) : quote text = quoteIn '\x22' text := rfl

variable {q : Char}

theorem ne_of_isQuote {c : Char} (hq : isQuote q = true) (hc : isQuote c = false) : q ≠ c := by
  rintro rfl
  rw [hq] at hc
  cases hc

theorem unescapeChars_cons {c : Char} (hc : c ≠ '\\') (rest : List Char) :
    unescapeChars (c :: rest) = c :: unescapeChars rest := by
  rw [unescapeChars]
  intro _ _ hslash
  exact absurd hslash hc

/-- An escaped quote stands for the quote. -/
theorem escapeValue?_of_isQuote (hq : isQuote q = true) : escapeValue? q = some q := by
  simp only [isQuote, Bool.or_eq_true, beq_iff_eq] at hq
  rcases hq with rfl | rfl
  · rfl
  · rfl

/-- One escaped character is read back as the character. -/
theorem unescapeChars_escapeIn (hq : isQuote q = true) (c : Char) (rest : List Char) :
    unescapeChars (escapeIn q c ++ rest) = c :: unescapeChars rest := by
  unfold escapeIn
  split
  · subst c
    rfl
  split
  · subst c
    simp [unescapeChars, escapeValue?_of_isQuote hq]
  split
  · subst c
    rfl
  split
  · subst c
    rfl
  · rename_i hslash _ _ _
    exact unescapeChars_cons hslash rest

/-- Escaping is undone exactly. -/
theorem unescapeChars_flatMap (hq : isQuote q = true) (text : List Char) :
    unescapeChars (text.flatMap (escapeIn q)) = text := by
  induction text with
  | nil => rfl
  | cons c rest ih => rw [List.flatMap_cons, unescapeChars_escapeIn hq, ih]

/-- The quotes are taken off whatever the body is. -/
theorem unquote?_enclose (hq : isQuote q = true) (body : List Char) :
    unquote? (enclose q body) = some (.ofList body) := by
  rw [unquote?, enclose, String.toList_ofList, unquoteChars?, if_pos hq,
    List.isSuffixOf?_eq_some_iff_append_eq.2 rfl, Option.map_some]

theorem isQuoted_enclose (hq : isQuote q = true) (body : List Char) :
    isQuoted (enclose q body) = true := by
  rw [isQuoted, unquote?_enclose hq, Option.isSome_some]

/-- **A text between quotes denotes the text**, whichever quotes they are. -/
theorem literal?_quoteIn (hq : isQuote q = true) (text : String) :
    literal? (quoteIn q text) = some text := by
  rw [literal?, quoteIn, unquote?_enclose hq, Option.map_some, unescape, String.toList_ofList,
    unescapeChars_flatMap hq, String.ofList_toList]

theorem isQuoted_quote (text : String) : isQuoted (quote text) = true := by
  rw [quote_eq]
  exact isQuoted_enclose (by decide) _

@[simp] theorem literal?_quote (text : String) : literal? (quote text) = some text := by
  rw [quote_eq]
  exact literal?_quoteIn (by decide) text

/-! ### Numbers in decimal -/

variable {n : Nat}

theorem isDigit_of_mem_toDigits {c : Char} (h : c ∈ Nat.toDigits 10 n) : c.isDigit = true :=
  Nat.isDigit_of_mem_toDigits (by decide) (by decide) h

theorem isDigits_toDigits (n : Nat) : isDigits (Nat.toDigits 10 n) = true := by
  simp only [isDigits, Bool.and_eq_true, Bool.not_eq_true', List.isEmpty_eq_false_iff, ne_eq,
    Nat.toDigits_ne_nil, not_false_eq_true, List.all_eq_true, true_and]
  intro c hc
  exact isDigit_of_mem_toDigits hc

theorem digitValue_of_isDigit {c : Char} (h : c.isDigit = true) :
    digitValue c = c.toNat - 48 ∧ digitValue c < 10 := by
  have hvalue : digitValue c = c.toNat - 48 := by rw [digitValue, if_pos h]
  refine ⟨hvalue, ?_⟩
  have hle : c.toNat ≤ 57 := by
    simp only [Char.isDigit, Bool.and_eq_true, decide_eq_true_eq] at h
    exact h.2
  omega

/-- The value of decimal digits is the one that the library gives them. -/
theorem digitsValue_eq {digits : List Char} (h : ∀ c ∈ digits, c.isDigit = true) (value : Nat) :
    digitsValue 10 value digits = Nat.ofDigitChars 10 digits value := by
  induction digits generalizing value with
  | nil => rw [digitsValue, Nat.ofDigitChars_nil]
  | cons c rest ih =>
    have hc := (digitValue_of_isDigit (h c (by simp))).1
    rw [digitsValue, ih (fun c hc => h c (by simp [hc])), Nat.ofDigitChars_cons, hc, Nat.mul_comm]
    rfl

theorem natural?_toDigits (n : Nat) : natural? 10 (Nat.toDigits 10 n) = some n := by
  have hall : (Nat.toDigits 10 n).all (digitValue · < 10) = true := by
    rw [List.all_eq_true]
    intro c hc
    simpa using (digitValue_of_isDigit (isDigit_of_mem_toDigits hc)).2
  rw [natural?, hall, digitsValue_eq (fun c hc => isDigit_of_mem_toDigits hc),
    Nat.ofDigitChars_ten_toDigits]
  simp

/-- The first digit is a zero for zero only. -/
theorem toDigits_eq_zero_cons {digits : List Char} (h : Nat.toDigits 10 n = '0' :: digits) :
    digits = [] := by
  induction n using Nat.strongRecOn generalizing digits with
  | ind n ih =>
    rw [Nat.toDigits_eq_if (by decide)] at h
    split at h
    · simpa using (List.cons.inj h).2.symm
    · rename_i hten
      obtain ⟨c, rest, hrest⟩ :=
        List.exists_cons_of_ne_nil (Nat.toDigits_ne_nil (n := n / 10) (b := 10))
      rw [hrest, List.cons_append] at h
      obtain ⟨rfl, -⟩ := List.cons.inj h
      -- the digits before the last are those of a positive number, so they are not a lone zero
      have hzero : n / 10 = 0 := by
        have hvalue := Nat.ofDigitChars_ten_toDigits (n := n / 10)
        rw [hrest, ih (n / 10) (by omega) hrest] at hvalue
        simpa [Nat.ofDigitChars] using hvalue.symm
      omega

/-- There is a first digit, and it is no sign. -/
theorem exists_toDigits_cons (n : Nat) :
    ∃ c rest, Nat.toDigits 10 n = c :: rest ∧ c ≠ '-' ∧ c ≠ '+' := by
  obtain ⟨c, rest, hdigits⟩ := List.exists_cons_of_ne_nil (Nat.toDigits_ne_nil (n := n) (b := 10))
  have hdigit : c.isDigit = true := isDigit_of_mem_toDigits (by rw [hdigits]; simp : c ∈ _)
  refine ⟨c, rest, hdigits, ?_, ?_⟩
  · rintro rfl
    exact absurd hdigit (by decide)
  · rintro rfl
    exact absurd hdigit (by decide)

theorem word?_toDigits (h : (n : Int) ≤ maxWord) :
    word? 10 (Nat.toDigits 10 n) = some (n : Int) := by
  obtain ⟨c, rest, hdigits, hsign⟩ := exists_toDigits_cons n
  have hword : word? 10 (c :: rest) = (natural? 10 (c :: rest)).bind fun n => inWord? n := by
    unfold word?
    split <;> simp_all
  rw [hdigits, hword, ← hdigits, natural?_toDigits, Option.bind_some, inWord?, if_pos]
  exact ⟨by simp only [minWord]; omega, h⟩

theorem magnitude?_toDigits (h : (n : Int) ≤ maxWord) :
    magnitude? (Nat.toDigits 10 n) = some (n : Int) := by
  have hword := word?_toDigits h
  unfold magnitude?
  -- a zero in front of other digits would make them octal or hexadecimal
  split
  · rename_i hdigits
    cases toDigits_eq_zero_cons hdigits
  · rename_i hdigits
    cases toDigits_eq_zero_cons hdigits
  · rename_i hdigits
    cases toDigits_eq_zero_cons hdigits
  · rw [if_pos (isDigits_toDigits n), hword]

/-- The word of a number that is not negative. -/
theorem integer?_toString_nat (h : (n : Int) ≤ maxWord) :
    integer? (toString n) = some (n : Int) := by
  obtain ⟨c, rest, hdigits, hsign⟩ := exists_toDigits_cons n
  have hmagnitude := magnitude?_toDigits h
  rw [Nat.toString_eq_repr, integer?, Nat.toList_repr, hdigits] at *
  split <;> simp_all

/-- **The word of a number reads back as the number.** A negative number of 32 bits is the negative
of its magnitude in 64 bits too. -/
theorem integer?_toString {value : Int} (hlow : -2147483648 ≤ value) (hhigh : value ≤ 2147483647) :
    integer? (toString value) = some value := by
  rw [Int.toString_eq_repr, Int.repr_eq_if]
  split
  · have hvalue : ((value.toNat : Nat) : Int) = value := by omega
    have hnat := integer?_toString_nat (n := value.toNat) (by simp only [maxWord]; omega)
    rwa [Nat.toString_eq_repr, hvalue] at hnat
  · have hvalue : (((-value).toNat : Nat) : Int) = -value := by omega
    have hmagnitude := magnitude?_toDigits (n := (-value).toNat) (by simp only [maxWord]; omega)
    have hnegate : negateWord (-value) = value := by
      rw [negateWord, Int.neg_neg, Int.bmod_eq_of_le_mul_two] <;> omega
    rw [integer?, String.toList_append, Nat.toList_repr]
    simp [hmagnitude, hvalue, hnegate]

theorem isNumber_of_digits {lexeme : String} {digits : List Char}
    (h : unsigned lexeme.toList = digits) (hdigits : isDigits digits = true) :
    isNumber lexeme = true := by
  simp only [isDigits, Bool.and_eq_true, Bool.not_eq_true', List.all_eq_true] at hdigits
  have htake : digits.takeWhile Char.isDigit = digits := List.takeWhile_eq_self_iff.2 hdigits.2
  have hdrop : digits.dropWhile Char.isDigit = [] := List.dropWhile_eq_nil_iff.2 hdigits.2
  have hdecimal : isDecimalNumeral digits = true := by
    simp [isDecimalNumeral, htake, hdrop, hdigits.1, isExponent]
  simp [isNumber, h, hdecimal]

theorem isNumber_toString_nat (n : Nat) : isNumber (toString n) = true := by
  obtain ⟨c, rest, hdigits, hsign⟩ := exists_toDigits_cons n
  refine isNumber_of_digits ?_ (isDigits_toDigits n)
  rw [Nat.toString_eq_repr, Nat.toList_repr, hdigits]
  simp [unsigned, isSign, hsign]

/-- The word of a number is a number. -/
theorem isNumber_toString (value : Int) : isNumber (toString value) = true := by
  rw [Int.toString_eq_repr, Int.repr_eq_if]
  split
  · exact isNumber_toString_nat value.toNat
  · refine isNumber_of_digits ?_ (isDigits_toDigits (-value).toNat)
    rw [String.toList_append, Nat.toList_repr]
    rfl

end ProtoSchema.Lexeme
