import ProtoSchema.Proofs.Declarations
import ProtoSchema.Proofs.Ordering

/-!
# Recovery is exact to the line

A statement that is refused costs the line of the token that its diagnostic points at, and no more
than that: reading goes on behind the first line end from this token on. A diagnostic may point at
the next token, at the one just passed, or at the last of all when the tokens have run out, but the
place where the line ends is the same for all of these. A declaration that is read ends on its own
line, with the first semicolon that it comes to.

* `BehindLine.of_succ`: a token that was passed is on the line that is passed next.
* `Tape.Blames.exists_behindLine`: where passing a line comes to, counted from a diagnostic.
* `Grammar.Ended.firstFrom`: the semicolon of a declaration, counted from its place.
* `Statement.exists_of_refused`: how a statement without a node and with one diagnostic was read.
* `recovers_behind_line`: statements from any place of a text on.
-/

namespace ProtoSchema

open Parse

variable {tokens : List Token} {tape after : Tape} {token : Token} {statement : Statement}
  {i stop : Nat}

/-! ### The end of a line -/

/-- A place behind a line is also the one for the token before the line, if that token ends no line
or is the last of all. -/
theorem BehindLine.of_succ (h : BehindLine tokens (i + 1) stop)
    (hcase : ¬LineEndsAt tokens i ∨ i + 1 = tokens.length) : BehindLine tokens i stop := by
  by_cases hend : LineEndsAt tokens i
  · have hlast := hcase.resolve_left fun hnot => hnot hend
    rcases h with ⟨k, hfirst, -⟩ | ⟨-, hstop⟩
    · obtain ⟨token, htoken, -⟩ := hfirst.here
      have hbound := (List.getElem?_eq_some_iff.1 htoken).1
      have hle := hfirst.le
      omega
    · exact .inl ⟨i, ⟨Nat.le_refl i, hend, fun n hle hlt => by omega⟩, by omega⟩
  · have hstep : ∀ {n : Nat}, i ≤ n → (i + 1 ≤ n → ¬LineEndsAt tokens n) →
        ¬LineEndsAt tokens n := by
      intro n hle hnext
      rcases Nat.eq_or_lt_of_le hle with rfl | hlt
      · exact hend
      · exact hnext hlt
    rcases h with ⟨k, hfirst, hstop⟩ | ⟨hnone, hstop⟩
    · have hle := hfirst.le
      exact .inl ⟨k, ⟨by omega, hfirst.here, fun n hn hlt =>
        hstep hn fun hnext => hfirst.none_before n hnext hlt⟩, hstop⟩
    · exact .inr ⟨fun n hn => hstep hn (hnone n), hstop⟩

/-- **Passing a line comes behind the end of the line of the diagnostic.** -/
theorem Tape.Blames.exists_behindLine (h : tape.Blames after token) (hleft : tape.rest ≠ [])
    (hnodup : tape.tokens.Nodup) (hregular : ∀ token ∈ tape.tokens, token.Regular) :
    ∃ i, tape.position ≤ i ∧ tape.tokens[i]? = some token ∧
      BehindLine tape.tokens i after.skipLine.position := by
  obtain ⟨i, htoken, hle, hplace⟩ := h.reports.exists_index hleft hnodup
  have hline := after.behindLine_skipLine
  have hlength := after.position_add_remaining
  rw [h.reports.1.tokens_eq] at hline hlength
  refine ⟨i, hle, htoken, ?_⟩
  rcases hplace with rfl | ⟨hnext, hcase⟩
  · exact hline
  · rw [← hnext] at hline
    refine hline.of_succ ?_
    rcases hcase with hrest | hnearest
    · right
      rw [remaining, hrest, List.length_nil] at hlength
      omega
    · left
      rintro ⟨found, hfound, hend⟩
      obtain rfl : found = token := Option.some.inj (hfound.symm.trans htoken)
      rw [h.passed hnearest (hregular found (List.mem_of_getElem? hfound))] at hend
      cases hend

/-! ### Statements -/

/-- A semicolon is the token of an index. -/
def SemicolonAt (tokens : List Token) (k : Nat) : Prop :=
  ∃ token, tokens[k]? = some token ∧ token.isMark .semicolon = true

/-- Words up to their first semicolon, as the tokens that come next. -/
theorem Grammar.Ended.firstFrom {words rest : List Token} (h : Grammar.Ended words)
    (hrest : tape.rest = words ++ rest) (hregular : ∀ token ∈ tape.tokens, token.Regular) :
    ∃ k, k + 1 = tape.position + words.length ∧
      FirstFrom (SemicolonAt tape.tokens) tape.position k ∧
      ∀ i, tape.position ≤ i → i ≤ k → ¬LineEndsAt tape.tokens i := by
  obtain ⟨front, semicolon, rfl, hfront, hmark⟩ := id h
  have hlength : (front ++ [semicolon]).length = front.length + 1 := List.length_append
  have hword : ∀ {n : Nat} {found : Token}, tape.tokens[tape.position + n]? = some found →
      n < front.length + 1 → (front ++ [semicolon])[n]? = some found := by
    intro n found hfound hlt
    rwa [tape.getElem?_tokens, hrest, List.getElem?_append_left (by omega)] at hfound
  have hindex : tape.tokens[tape.position + front.length]? = some semicolon := by
    rw [tape.getElem?_tokens, hrest, List.append_assoc, List.getElem?_append_right (Nat.le_refl _)]
    simp
  refine ⟨tape.position + front.length, by omega, ⟨by omega, ⟨semicolon, hindex, hmark⟩, ?_⟩, ?_⟩
  · rintro i hle hlt ⟨found, hfound, hsemicolon⟩
    obtain ⟨n, rfl⟩ := Nat.exists_eq_add_of_le hle
    have hn := hword hfound (by omega)
    rw [List.getElem?_append_left (by omega)] at hn
    have hflat := hfront found (List.mem_of_getElem? hn)
      (hregular found (List.mem_of_getElem? hfound))
    rw [hflat.2] at hsemicolon
    cases hsemicolon
  · rintro i hle hlt ⟨found, hfound, hend⟩
    obtain ⟨n, rfl⟩ := Nat.exists_eq_add_of_le hle
    have hn := hword hfound (by omega)
    rw [h.isLineEnd_of_mem (List.mem_of_getElem? hn)
      (hregular found (List.mem_of_getElem? hfound))] at hend
    cases hend

namespace Statement

/-- Reads a statement from a place among tokens on. -/
def readAt (statement : Statement) (tokens : List Token) (p : Nat) : Outcome :=
  statement.read ((Tape.ofTokens tokens).moveTo p)

/-- No node and a single diagnostic that is not fatal: the statement was refused, not a member of its
body. -/
theorem exists_of_refused {diagnostic : Diagnostic} (hnode : (statement.read tape).node = none)
    (herrors : (statement.read tape).errors = [diagnostic]) (hminor : diagnostic.isFatal = false) :
    ∃ after, statement.start tape = .error diagnostic after ∧
      (statement.read tape).tape = after.skipLine := by
  unfold read at hnode herrors ⊢
  cases hstart : statement.start tape with
  | error fault after =>
    simp only [hstart, List.cons.injEq, and_true] at herrors ⊢
    subst herrors
    exact ⟨after, rfl, by simp [Diagnostic.resume, hminor]⟩
  | ok reading after =>
    cases reading with
    | whole node => simp [hstart] at hnode
    | opened frame =>
      simp only [hstart] at hnode herrors
      have hsettled := frame.settled_run [] [] after minor_nil
      generalize frame.run [] [] after = outcome at hnode herrors hsettled
      cases hsettled with
      | closed _ => cases hnode
      | @cut earlier last _ _ hfatal _ =>
        -- the last diagnostic of a body that never ends is fatal
        obtain rfl : last = diagnostic := by simpa using congrArg List.getLast? herrors
        rw [hminor] at hfatal
        cases hfatal

/-- A declaration that gives a node ends with its first semicolon, on the line where it starts. -/
theorem exists_semicolon (hdeclaration : statement.isDeclaration = true) {node : Node}
    (hnode : (statement.read tape).node = some node)
    (hregular : ∀ token ∈ tape.tokens, token.Regular) :
    ∃ k, FirstFrom (SemicolonAt tape.tokens) tape.position k ∧
      (∀ i, tape.position ≤ i → i ≤ k → ¬LineEndsAt tape.tokens i) ∧
      tape.Reaches (statement.read tape).tape ∧ (statement.read tape).tape.position = k + 1 := by
  unfold read at hnode ⊢
  cases hstart : statement.start tape with
  | error fault after => simp [hstart] at hnode
  | ok reading after =>
    obtain ⟨node, words, rfl, hrest, hseen, hended⟩ := ended_of_start hdeclaration hstart
    obtain ⟨k, hk, hfirst, hline⟩ := hended.firstFrom hrest hregular
    refine ⟨k, hfirst, hline, ⟨words, hrest, hseen⟩, ?_⟩
    have hlength : after.seen.length = words.length + tape.seen.length := by
      rw [hseen, List.length_append, List.length_reverse]
    simp only [Tape.position] at hk ⊢
    omega

end Statement

/-- **Recovery is exact to the line.** A statement is read from any place of a text on. If it gives no
node and one diagnostic that is not fatal, the diagnostic points at a token from this place on, and
reading goes on behind the first line end from this token on, or at the end if there is none. If it
is a declaration and gives a node, it ends with its first semicolon, and no line ends before that. -/
theorem recovers_behind_line (source : String) (p : Nat) (hp : p < (tokenize source).length)
    (statement : Statement) :
    (∀ diagnostic, (statement.readAt (tokenize source) p).node = none →
      (statement.readAt (tokenize source) p).errors = [diagnostic] →
      diagnostic.isFatal = false →
      ∃ i stop, p ≤ i ∧ (tokenize source)[i]? = some diagnostic.token ∧
        BehindLine (tokenize source) i stop ∧
        (statement.readAt (tokenize source) p).tape =
          (Tape.ofTokens (tokenize source)).moveTo stop) ∧
    (statement.isDeclaration = true →
      ∀ node, (statement.readAt (tokenize source) p).node = some node →
      ∃ k, FirstFrom (SemicolonAt (tokenize source)) p k ∧
        (∀ i, p ≤ i → i ≤ k → ¬LineEndsAt (tokenize source) i) ∧
        (statement.readAt (tokenize source) p).tape =
          (Tape.ofTokens (tokenize source)).moveTo (k + 1)) := by
  have hregular := regular_tokenize source
  have hnodup := nodup_tokenize source
  generalize tokenize source = tokens at hp hregular hnodup ⊢
  have htokens : (Tape.ofTokens tokens).tokens = tokens := rfl
  have hstart : ((Tape.ofTokens tokens).moveTo p).tokens = tokens := Tape.tokens_moveTo _ _
  have hposition : ((Tape.ofTokens tokens).moveTo p).position = p := by
    have hlength : (tokens.take p).reverse.length = p := by
      rw [List.length_reverse, List.length_take]
      omega
    exact hlength
  have hleft : ((Tape.ofTokens tokens).moveTo p).rest ≠ [] := by
    simp [Tape.moveTo, htokens, hp]
  have hmove : ∀ {after : Tape}, ((Tape.ofTokens tokens).moveTo p).Reaches after →
      after = (Tape.ofTokens tokens).moveTo after.position :=
    fun hreach => (hreach.exists_moveTo (Nat.le_of_lt hp)).2.2
  unfold Statement.readAt
  generalize (Tape.ofTokens tokens).moveTo p = tape at *
  subst hstart hposition
  refine ⟨?_, ?_⟩
  · intro diagnostic hnode herrors hminor
    obtain ⟨after, herror, htape⟩ := Statement.exists_of_refused hnode herrors hminor
    have hblames := Statement.blames_of_error herror hminor
    obtain ⟨i, hle, htoken, hline⟩ := hblames.exists_behindLine hleft hnodup hregular
    have hreach := hblames.reports.1.trans after.reaches_skipLine
    exact ⟨i, _, hle, htoken, hline, htape.trans (hmove hreach)⟩
  · intro hdeclaration node hnode
    obtain ⟨k, hfirst, hline, hreach, hend⟩ :=
      Statement.exists_semicolon hdeclaration hnode hregular
    refine ⟨k, hfirst, hline, ?_⟩
    rw [← hend]
    exact hmove hreach

/-- A version that the language does not have, and a package on the next line. -/
def unknownVersion : String := "syntax = \x22x\x22;\npackage a;"

/-- The diagnostic points at a token that was passed, with the semicolon behind it still to come; the
package on the next line is left whole, and is read up to its semicolon. -/
theorem recovers_behind_line_unknownVersion :
    (∃ i stop, 0 ≤ i ∧
      (tokenize unknownVersion)[i]? = some ⟨.text, ⟨1, 10⟩, "\x22x\x22"⟩ ∧
      BehindLine (tokenize unknownVersion) i stop ∧
      (Statement.version.readAt (tokenize unknownVersion) 0).tape =
        (Tape.ofTokens (tokenize unknownVersion)).moveTo stop) ∧
    ∃ k, FirstFrom (SemicolonAt (tokenize unknownVersion)) 5 k ∧
      (∀ i, 5 ≤ i → i ≤ k → ¬LineEndsAt (tokenize unknownVersion) i) ∧
      (Statement.package.readAt (tokenize unknownVersion) 5).tape =
        (Tape.ofTokens (tokenize unknownVersion)).moveTo (k + 1) := by
  have hversion : Statement.version.readAt (tokenize unknownVersion) 0 =
      ⟨none, [⟨.broken (.unknownVersion "x"), ⟨.text, ⟨1, 10⟩, "\x22x\x22"⟩⟩],
        (Tape.ofTokens (tokenize unknownVersion)).moveTo 5⟩ := by decide +kernel
  have hpackage : (Statement.package.readAt (tokenize unknownVersion) 5).node =
      some ⟨.package, "package", [.leaf .identifier "a"]⟩ := by decide +kernel
  constructor
  · exact (recovers_behind_line unknownVersion 0 (by decide +kernel) .version).1 _
      (by rw [hversion]) (by rw [hversion]) rfl
  · exact (recovers_behind_line unknownVersion 5 (by decide +kernel) .package).2 rfl _ hpackage

end ProtoSchema
