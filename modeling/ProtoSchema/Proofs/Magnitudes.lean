import Mathlib.Data.Nat.Digits.Defs
import ProtoSchema.Proofs.Numerals

/-!
# What integers denote

An integer is written as an optional sign and a numeral: `0x` or `0X` with hexadecimal digits, `0`
with octal digits, or decimal digits of which the first is no zero unless it stands alone. A numeral
denotes a number of any size. A word that is written as a number has a value exactly if it is such
an integer and its magnitude fits into a signed 64-bit word, and then the value is what is written.

* `Numeral`, `denoted`: numerals, their base and digits, and what the digits denote.
* `Spelled`: an integer with its sign and magnitude.
* `magnitude?_of_numeral`, `exists_numeral`: numerals are read, and nothing else is.
* `integer?_of_isNumber`: the values of numbers.
-/

namespace ProtoSchema.Lexeme

variable {lexeme : String} {body digits : List Char} {base magnitude : Nat} {negative : Bool}
  {c : Char}

/-! ### Numerals -/

/-- The digits in the order of what they stand for, a letter in either case. -/
def digitOrder : List (List Char) :=
  [['0'], ['1'], ['2'], ['3'], ['4'], ['5'], ['6'], ['7'], ['8'], ['9'], ['a', 'A'], ['b', 'B'],
   ['c', 'C'], ['d', 'D'], ['e', 'E'], ['f', 'F']]

/-- What a digit stands for, its rank in the order; sixteen for all other characters. -/
def digitRank (c : Char) : Nat := digitOrder.findIdx (·.contains c)

/-- The number that digits denote in a base, the last digit counting once. -/
def denoted (base : Nat) (digits : List Char) : Nat :=
  Nat.ofDigits base (digits.reverse.map digitRank)

/-- **A numeral**: how a magnitude is written, the base in which it is read, and its digits. -/
inductive Numeral : List Char → Nat → List Char → Prop
  | hexadecimal {mark : Char} {digits : List Char} (hmark : mark = 'x' ∨ mark = 'X')
      (hne : digits ≠ []) (hdigits : ∀ d ∈ digits, digitRank d < 16) :
      Numeral ('0' :: mark :: digits) 16 digits
  | octal {digits : List Char} (hne : digits ≠ []) (hdigits : ∀ d ∈ digits, digitRank d < 8) :
      Numeral ('0' :: digits) 8 digits
  | zero : Numeral ['0'] 10 ['0']
  | decimal {c : Char} {digits : List Char} (hfirst : c ≠ '0')
      (hdigits : ∀ d ∈ c :: digits, digitRank d < 10) : Numeral (c :: digits) 10 (c :: digits)

/-- **An integer as it is written**: an optional sign and a numeral. It is negative behind a minus
sign, and its magnitude is what the digits denote. -/
inductive Spelled : List Char → Bool → Nat → Prop
  | plain {body digits : List Char} {base : Nat} (h : Numeral body base digits) :
      Spelled body false (denoted base digits)
  | plus {body digits : List Char} {base : Nat} (h : Numeral body base digits) :
      Spelled ('+' :: body) false (denoted base digits)
  | minus {body digits : List Char} {base : Nat} (h : Numeral body base digits) :
      Spelled ('-' :: body) true (denoted base digits)

/-- The integer of a sign and a magnitude. -/
def signed (negative : Bool) (magnitude : Nat) : Int :=
  if negative then -(magnitude : Int) else magnitude

/-! ### Digits -/

theorem digitValue_of_mem (h : c ∈ digitOrder.flatten) : digitValue c = digitRank c := by
  have htable : digitOrder.flatten.all (fun d => digitValue d == digitRank d) = true := by decide
  have hc := List.all_eq_true.1 htable c h
  exact beq_iff_eq.1 hc

theorem mem_of_digitRank (h : digitRank c < 16) : c ∈ digitOrder.flatten := by
  obtain ⟨group, hgroup, hc⟩ := List.findIdx_lt_length.1 (show digitRank c < digitOrder.length from h)
  exact List.mem_flatten.2 ⟨group, hgroup, List.contains_iff_mem.1 hc⟩

theorem mem_of_digitValue (h : digitValue c < 16) : c ∈ digitOrder.flatten := by
  have htable : ∀ n < 128, isHexDigit (Char.ofNat n) = true →
      Char.ofNat n ∈ digitOrder.flatten := by decide +kernel
  have hhex := isHexDigit_of_digitValue h
  have hsmall : c.toNat < 128 := by
    simp only [isHexDigit, Char.isDigit, Char.le_def, UInt32.le_iff_toNat_le, Bool.or_eq_true,
      Bool.and_eq_true, decide_eq_true_eq] at hhex
    have hupper : c.toNat ≤ 57 ∨ c.toNat ≤ 102 ∨ c.toNat ≤ 70 := by
      rcases hhex with (h | h) | h
      · exact .inl h.2
      · exact .inr (.inl h.2)
      · exact .inr (.inr h.2)
    omega
  have hc := htable c.toNat hsmall
  rw [Char.ofNat_toNat] at hc
  exact hc hhex

/-- **A digit of a base has the value that its rank says.** -/
theorem digitValue_lt_iff (hbase : base ≤ 16) : digitValue c < base ↔ digitRank c < base := by
  constructor
  · intro h
    have hdigit : digitValue c < 16 := by omega
    have hvalue := digitValue_of_mem (mem_of_digitValue hdigit)
    omega
  · intro h
    have hdigit : digitRank c < 16 := by omega
    have hvalue := digitValue_of_mem (mem_of_digitRank hdigit)
    omega

theorem isSign_of_digitRank (h : digitRank c < 16) : isSign c = false := by
  have htable : digitOrder.flatten.all (!isSign ·) = true := by decide
  have hc := List.all_eq_true.1 htable c (mem_of_digitRank h)
  simpa using hc

/-- Reading digits one after the other gives what they denote, behind what was read before. -/
theorem digitsValue_eq_denoted (h : ∀ d ∈ digits, digitRank d < 16) (value : Nat) :
    digitsValue base value digits = value * base ^ digits.length + denoted base digits := by
  induction digits generalizing value with
  | nil => simp [digitsValue, denoted]
  | cons c rest ih =>
    rw [List.forall_mem_cons] at h
    have hc := digitValue_of_mem (mem_of_digitRank h.1)
    have hdenoted : denoted base (c :: rest) =
        denoted base rest + base ^ rest.length * digitRank c := by
      simp [denoted, Nat.ofDigits_append]
    rw [digitsValue, ih h.2, hc, hdenoted, List.length_cons, pow_succ]
    ring

/-! ### Magnitudes -/

/-- The greatest word, as a power of two. -/
theorem cast_le_maxWord {n : Nat} : (n : Int) ≤ maxWord ↔ n ≤ 2 ^ 63 - 1 := by
  rw [maxWord]
  omega

/-- Digits are read as what they denote, if that fits into a word. -/
theorem word?_of_digits (hbase : base ≤ 16) (hne : digits ≠ [])
    (hdigits : ∀ d ∈ digits, digitRank d < base) :
    word? base digits =
      if denoted base digits ≤ 2 ^ 63 - 1 then some (denoted base digits : Int) else none := by
  obtain ⟨c, rest, rfl⟩ := List.exists_cons_of_ne_nil hne
  have hrank : ∀ d ∈ c :: rest, digitRank d < 16 := fun d hd =>
    Nat.lt_of_lt_of_le (hdigits d hd) hbase
  have hsign := isSign_of_digitRank (hrank c List.mem_cons_self)
  have hword : word? base (c :: rest) =
      (natural? base (c :: rest)).bind fun n => inWord? n := by
    simp only [isSign, Bool.or_eq_false_iff, beq_eq_false_iff_ne] at hsign
    unfold word?
    split <;> simp_all
  have hall : (c :: rest).all (digitValue · < base) = true := by
    rw [List.all_eq_true]
    intro d hd
    exact decide_eq_true ((digitValue_lt_iff hbase).2 (hdigits d hd))
  have hnatural : natural? base (c :: rest) = some (denoted base (c :: rest)) := by
    have hvalue := @digitsValue_eq_denoted (c :: rest) base hrank 0
    rw [Nat.zero_mul, Nat.zero_add] at hvalue
    rw [natural?, hall, hvalue]
    rfl
  have hlow : minWord ≤ (denoted base (c :: rest) : Int) := by
    rw [minWord]
    omega
  rw [hword, hnatural, Option.bind_some, inWord?]
  simp only [hlow, true_and, cast_le_maxWord]

/-- **A numeral is read as what it denotes**, if that fits into a word. -/
theorem magnitude?_of_numeral (h : Numeral body base digits) :
    magnitude? body =
      if denoted base digits ≤ 2 ^ 63 - 1 then some (denoted base digits : Int) else none := by
  cases h with
  | hexadecimal hmark hne hdigits =>
    rw [← word?_of_digits (by decide) hne hdigits]
    rcases hmark with rfl | rfl <;> rfl
  | octal hne hdigits =>
    rw [← word?_of_digits (by decide) hne hdigits]
    obtain ⟨c, rest, rfl⟩ := List.exists_cons_of_ne_nil hne
    -- the mark of hexadecimal numerals is no octal digit
    have hlower : c ≠ 'x' := by
      rintro rfl
      exact absurd (hdigits 'x' List.mem_cons_self) (by decide)
    have hupper : c ≠ 'X' := by
      rintro rfl
      exact absurd (hdigits 'X' List.mem_cons_self) (by decide)
    unfold magnitude?
    split <;> simp_all
  | zero => decide
  | @decimal c rest hfirst hdigits =>
    rw [← word?_of_digits (by decide) (List.cons_ne_nil c rest) hdigits]
    have hall : isDigits (c :: rest) = true := by
      simp only [isDigits, List.isEmpty_cons, Bool.not_false, Bool.true_and, List.all_eq_true]
      intro d hd
      exact isDigit_of_digitValue ((digitValue_lt_iff (by decide)).2 (hdigits d hd))
    unfold magnitude?
    split <;> simp_all

/-- **What is read without a sign inside is a numeral.** -/
theorem exists_numeral (h : (magnitude? body).isSome = true) (hsign : innerSigned body = false) :
    ∃ base digits, Numeral body base digits := by
  have hhex : ∀ {mark digits}, mark = 'x' ∨ mark = 'X' → body = '0' :: mark :: digits →
      (word? 16 digits).isSome = true → ∃ base digits, Numeral body base digits := by
    rintro mark (_ | ⟨c, rest⟩) hmark rfl hword
    · cases hword
    · have hfirst : isSign c = false := by rcases hmark with rfl | rfl <;> exact hsign
      refine ⟨16, c :: rest, .hexadecimal hmark (List.cons_ne_nil c rest) ?_⟩
      intro d hd
      exact (digitValue_lt_iff (by decide)).1 (digits_of_word? hword hfirst d hd)
  unfold magnitude? at h
  split at h
  · exact hhex (.inl rfl) rfl h
  · exact hhex (.inr rfl) rfl h
  · rename_i c rest hlower hupper
    have hfirst : isSign c = false := by
      unfold innerSigned at hsign
      split at hsign <;> simp_all
    refine ⟨8, c :: rest, .octal (List.cons_ne_nil c rest) ?_⟩
    intro d hd
    exact (digitValue_lt_iff (by decide)).1 (digits_of_word? h hfirst d hd)
  · rename_i hlower hupper hzero
    split at h
    · rename_i hdigits
      cases body with
      | nil => cases hdigits
      | cons c rest =>
        have hall : ∀ d ∈ c :: rest, digitRank d < 10 := by
          intro d hd
          simp only [isDigits, List.isEmpty_cons, Bool.not_false, Bool.true_and,
            List.all_eq_true] at hdigits
          exact (digitValue_lt_iff (by decide)).1 (digitValue_of_isDigit (hdigits d hd)).2
        by_cases hc : c = '0'
        · subst hc
          -- a zero in front of other digits makes them octal
          cases rest with
          | nil => exact ⟨10, ['0'], .zero⟩
          | cons d others => exact absurd rfl (hzero d others)
        · exact ⟨10, c :: rest, .decimal hc hall⟩
    · cases h

/-! ### Integers -/

/-- The negative of a magnitude that fits into a word fits into it too. -/
theorem negateWord_of_le (h : magnitude ≤ 2 ^ 63 - 1) :
    negateWord (magnitude : Int) = -(magnitude : Int) := by
  rw [negateWord, Int.bmod_eq_of_le_mul_two] <;> omega

/-- A numeral does not start with a sign. -/
theorem isSign_of_numeral (h : Numeral (c :: body) base digits) : isSign c = false := by
  cases h with
  | hexadecimal | octal | zero => decide
  | decimal hfirst hdigits =>
    have hrank := hdigits c List.mem_cons_self
    exact isSign_of_digitRank (by omega)

/-- **A written integer is read as what it denotes**, if its magnitude fits into a word. -/
theorem integer?_of_spelled (h : Spelled lexeme.toList negative magnitude) :
    integer? lexeme =
      if magnitude ≤ 2 ^ 63 - 1 then some (signed negative magnitude) else none := by
  unfold integer?
  generalize lexeme.toList = text at h
  cases h with
  | plain h =>
    split
    · exact absurd (isSign_of_numeral h) (by decide)
    · exact absurd (isSign_of_numeral h) (by decide)
    · exact magnitude?_of_numeral h
  | plus h => exact magnitude?_of_numeral h
  | @minus body digits base h =>
    simp only [magnitude?_of_numeral h]
    split
    · rename_i hle
      rw [Option.map_some, negateWord_of_le hle]
      rfl
    · rfl

/-- **A number that is read is a written integer.** -/
theorem exists_spelled (hnumber : isNumber lexeme = true) (h : (integer? lexeme).isSome = true) :
    ∃ negative magnitude, Spelled lexeme.toList negative magnitude := by
  have hsign : innerSigned (unsigned lexeme.toList) = false := by
    have hinner := isNumber_of_integer? h
    rw [hnumber, hasInnerSign] at hinner
    simpa using hinner.symm
  rw [isSome_integer?] at h
  obtain ⟨base, digits, hnumeral⟩ := exists_numeral h hsign
  cases htext : lexeme.toList with
  | nil =>
    rw [htext] at hnumeral
    cases hnumeral
  | cons c rest =>
    rw [htext, unsigned] at hnumeral
    split at hnumeral
    · rename_i hc
      rcases Bool.or_eq_true_iff.1 hc with hc | hc
      · rw [beq_iff_eq.1 hc]
        exact ⟨false, _, .plus hnumeral⟩
      · rw [beq_iff_eq.1 hc]
        exact ⟨true, _, .minus hnumeral⟩
    · exact ⟨false, _, .plain hnumeral⟩

/-- **The values of numbers.** A word that is written as a number has a value if and only if it is a
sign, or none, and a numeral whose magnitude is less than two to the power of 63; the value is then
the integer that is written, and there is none in all other cases. Behind a minus sign the magnitude
is negated, and the negative of what is read there is always a word. -/
theorem integer?_of_isNumber (lexeme : String) (hnumber : isNumber lexeme = true) :
    (∀ value, integer? lexeme = some value ↔
      ∃ negative magnitude, Spelled lexeme.toList negative magnitude ∧
        magnitude ≤ 2 ^ 63 - 1 ∧ value = signed negative magnitude) ∧
    (integer? lexeme = none ↔
      ∀ negative magnitude, Spelled lexeme.toList negative magnitude →
        2 ^ 63 - 1 < magnitude) ∧
    ∀ body value, lexeme.toList = '-' :: body → magnitude? body = some value →
      0 ≤ value ∧ minWord ≤ -value ∧ -value ≤ maxWord ∧ negateWord value = -value := by
  have hvalue : ∀ value, integer? lexeme = some value ↔
      ∃ negative magnitude, Spelled lexeme.toList negative magnitude ∧
        magnitude ≤ 2 ^ 63 - 1 ∧ value = signed negative magnitude := by
    intro value
    constructor
    · intro h
      obtain ⟨negative, magnitude, hspelled⟩ := exists_spelled hnumber (by rw [h]; rfl)
      rw [integer?_of_spelled hspelled] at h
      split at h
      · rename_i hle
        exact ⟨negative, magnitude, hspelled, hle, (Option.some.inj h).symm⟩
      · cases h
    · rintro ⟨negative, magnitude, hspelled, hle, rfl⟩
      rw [integer?_of_spelled hspelled, if_pos hle]
  refine ⟨hvalue, ?_, ?_⟩
  · rw [Option.eq_none_iff_forall_ne_some]
    constructor
    · intro h negative magnitude hspelled
      by_contra hle
      exact h _ ((hvalue _).2 ⟨negative, magnitude, hspelled, by omega, rfl⟩)
    · intro h value hsome
      obtain ⟨negative, magnitude, hspelled, hle, -⟩ := (hvalue value).1 hsome
      have hlt := h negative magnitude hspelled
      omega
  · intro body value htext hbody
    have hinteger : integer? lexeme = some (negateWord value) := by
      rw [integer?, htext]
      simp [hbody]
    have hsign : innerSigned body = false := by
      have hsome : (integer? lexeme).isSome = true := by
        rw [hinteger]
        rfl
      have hinner := isNumber_of_integer? hsome
      rw [hnumber, hasInnerSign, htext] at hinner
      simpa [unsigned, isSign] using hinner.symm
    obtain ⟨base, digits, hnumeral⟩ := exists_numeral (by rw [hbody]; rfl) hsign
    rw [magnitude?_of_numeral hnumeral] at hbody
    split at hbody
    · rename_i hle
      cases hbody
      have hnegate := negateWord_of_le hle
      rw [minWord, maxWord]
      omega
    · cases hbody

/-- The least integer of all that are written in hexadecimal digits and have a value. -/
theorem integer?_of_isNumber_leastHexadecimal :
    isNumber "-0x7fffffffffffffff" = true ∧
      integer? "-0x7fffffffffffffff" = some (-9223372036854775807) ∧
      integer? "-0x7fffffffffffffff" ≠ none ∧
      ∃ value, magnitude? "0x7fffffffffffffff".toList = some value ∧
        negateWord value = -value := by
  have hnumber : isNumber "-0x7fffffffffffffff" = true := by decide
  obtain ⟨hvalue, hnone, hnegate⟩ := integer?_of_isNumber "-0x7fffffffffffffff" hnumber
  have hdigits : ∀ d ∈ "7fffffffffffffff".toList, digitRank d < 16 := by
    have hall : "7fffffffffffffff".toList.all (digitRank · < 16) = true := by decide
    simpa only [List.all_eq_true, decide_eq_true_eq] using hall
  have hspelled : Spelled "-0x7fffffffffffffff".toList true
      (denoted 16 "7fffffffffffffff".toList) :=
    .minus (.hexadecimal (.inl rfl) (by decide) hdigits)
  have hmagnitude : denoted 16 "7fffffffffffffff".toList = 9223372036854775807 := by
    decide +kernel
  rw [hmagnitude] at hspelled
  refine ⟨hnumber, (hvalue _).2 ⟨_, _, hspelled, by decide, rfl⟩, ?_, ?_⟩
  · intro h
    exact absurd (hnone.1 h _ _ hspelled) (by decide)
  · have hbody : magnitude? "0x7fffffffffffffff".toList = some 9223372036854775807 := by
      decide +kernel
    exact ⟨_, hbody, (hnegate _ _ (by decide) hbody).2.2.2⟩

example : integer? "0" = some 0 ∧ integer? "-007" = some (-7) ∧ integer? "08" = none ∧
    integer? "0.5" = none ∧ integer? "-9223372036854775808" = none := by
  decide

end ProtoSchema.Lexeme
