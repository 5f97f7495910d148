import ProtoSchema.Proofs.Moves
import ProtoSchema.Proofs.Progress
import ProtoSchema.Proofs.Tiling

/-!
# Diagnostics in the order of the text

A statement that is refused costs its line: the line on which reading stands then is passed to its
end. So the diagnostics that do not end a file come in the order of their tokens, and between any
two of them a line ends.

* `Tape.Reports.exists_index`: where among all tokens a diagnostic points.
* `BehindLine`: the place behind the end of a line; `Tape.behindLine_skipLine` comes there.
* `Place.Ordered`: the diagnostics so far are in order, and a line ended behind the last of them;
  `Place.Ordered.of_move` keeps it.
* `diagnostics_in_order`: the diagnostics of a text.
-/

namespace ProtoSchema

open Parse

variable {tokens : List Token} {tape after : Tape} {token : Token}

/-! ### Indices of tokens -/

/-- A line ends with the token of an index. -/
def LineEndsAt (tokens : List Token) (k : Nat) : Prop :=
  ∃ token, tokens[k]? = some token ∧ token.isLineEnd = true

/-- A token stands before another, and a line ends between them; the first may be its end. -/
def LineApart (tokens : List Token) (first second : Token) : Prop :=
  ∃ i k j, tokens[i]? = some first ∧ tokens[j]? = some second ∧ i ≤ k ∧ k < j ∧
    LineEndsAt tokens k

/-- The first index from a start on for which something holds. -/
structure FirstFrom (holds : Nat → Prop) (start k : Nat) : Prop where
  le : start ≤ k
  here : holds k
  none_before : ∀ i, start ≤ i → i < k → ¬holds i

/-- The place behind the end of the line of a token, or behind all tokens if the line has no end. -/
def BehindLine (tokens : List Token) (i stop : Nat) : Prop :=
  (∃ k, FirstFrom (LineEndsAt tokens) i k ∧ stop = k + 1) ∨
    (∀ k, i ≤ k → ¬LineEndsAt tokens k) ∧ stop = tokens.length

namespace Tape

/-- Tokens to come are counted from the place of a tape on. -/
theorem getElem?_tokens (tape : Tape) (n : Nat) :
    tape.tokens[tape.position + n]? = tape.rest[n]? := by
  have hlength : tape.seen.reverse.length ≤ tape.position + n := by simp [position]
  rw [tokens, List.getElem?_append_right hlength]
  simp [position]

theorem getElem?_of_peek? (h : tape.peek? = some token) :
    tape.tokens[tape.position]? = some token := by
  have hindex := tape.getElem?_tokens 0
  rw [Nat.add_zero] at hindex
  rw [hindex, ← List.head?_eq_getElem?]
  exact h

/-- The token just passed stands right before the place of a tape. -/
theorem getElem?_of_head?_seen (h : tape.seen.head? = some token) :
    0 < tape.position ∧ tape.tokens[tape.position - 1]? = some token := by
  obtain ⟨seen, rest⟩ := tape
  cases seen with
  | nil => cases h
  | cons last others =>
    cases h
    simp [tokens, position]

theorem Reaches.position_le (h : tape.Reaches after) : tape.position ≤ after.position := by
  obtain ⟨passed, -, hseen⟩ := h
  simp [position, hseen]

/-- **Where a diagnostic points**: not before the place where its statement starts, and at the place
where reading stands or right before it. -/
theorem Reports.exists_index (h : tape.Reports after token) (hleft : tape.rest ≠ [])
    (hnodup : tape.tokens.Nodup) :
    ∃ i, tape.tokens[i]? = some token ∧ tape.position ≤ i ∧ (i = after.position ∨
      i + 1 = after.position ∧ (after.rest = [] ∨ after.nearest ≠ token)) := by
  obtain ⟨hreach, hpoints⟩ := h
  have htokens := hreach.tokens_eq
  have hle := hreach.position_le
  have hlength := tape.position_add_remaining
  have hlater := after.position_add_remaining
  have hpos : 0 < tape.remaining := List.length_pos_iff.2 hleft
  rw [htokens] at hlater
  -- a token that is the last one passed has the index before the place
  have hseen : after.seen.head? = some token → tape.position < after.position →
      (after.rest = [] ∨ after.nearest ≠ token) →
      ∃ i, tape.tokens[i]? = some token ∧ tape.position ≤ i ∧ (i = after.position ∨
        i + 1 = after.position ∧ (after.rest = [] ∨ after.nearest ≠ token)) := by
    intro hhead hlt hcase
    obtain ⟨-, hindex⟩ := getElem?_of_head?_seen hhead
    rw [htokens] at hindex
    exact ⟨after.position - 1, hindex, by omega, .inr ⟨by omega, hcase⟩⟩
  by_cases hnearest : after.nearest = token
  · cases hpeek : after.peek? with
    | some next =>
      have htoken : next = token := by simpa [nearest, hpeek] using hnearest
      have hindex := getElem?_of_peek? hpeek
      rw [htokens, htoken] at hindex
      exact ⟨after.position, hindex, hle, .inl rfl⟩
    | none =>
      have hend := rest_of_peek?_eq_none hpeek
      have hrest : after.remaining = 0 := by simp [remaining, hend]
      have hlt : tape.position < after.position := by omega
      cases hhead : after.seen.head? with
      | none =>
        have : after.position = 0 := by simp [position, List.head?_eq_none_iff.1 hhead]
        omega
      | some last =>
        have htoken : last = token := by simpa [nearest, hpeek, hhead] using hnearest
        exact hseen (htoken ▸ hhead) hlt (.inl hend)
  · obtain ⟨hmem, hhead⟩ := hpoints.resolve_left hnearest
    refine hseen hhead (Nat.lt_of_le_of_ne hle fun heq => ?_) (.inr hnearest)
    -- nothing was passed, so the token stands both before and behind the place
    obtain ⟨hpositive, hindex⟩ := getElem?_of_head?_seen hhead
    obtain ⟨n, hn⟩ := List.mem_iff_getElem?.1 hmem
    rw [← getElem?_tokens] at hn
    rw [htokens] at hindex
    have hbound := (List.getElem?_eq_some_iff.1 hn).1
    have hsame := (List.getElem?_inj hbound hnodup).1 (hn.trans hindex.symm)
    omega

/-- **Passing a line comes behind its end**, and not further. -/
theorem behindLine_skipLine (tape : Tape) :
    BehindLine tape.tokens tape.position tape.skipLine.position := by
  have hreach := tape.reaches_skipWhile (!·.isLineEnd)
  have hle := hreach.position_le
  have hposition : (tape.skipWhile (!·.isLineEnd)).position =
      tape.position + (tape.rest.takeWhile (!·.isLineEnd)).length := by
    simp [skipWhile, position, Nat.add_comm]
  have hinside : ∀ k, tape.position ≤ k → k < (tape.skipWhile (!·.isLineEnd)).position →
      ¬LineEndsAt tape.tokens k := by
    rintro k hk hlt ⟨token, htoken, hend⟩
    have hindex := tape.getElem?_tokens (k - tape.position)
    have hsplit : tape.rest = tape.rest.takeWhile (!·.isLineEnd) ++
        tape.rest.dropWhile (!·.isLineEnd) := List.takeWhile_append_dropWhile.symm
    rw [Nat.add_sub_cancel' hk, htoken, hsplit, List.getElem?_append_left (by omega)] at hindex
    have hword := List.mem_takeWhile_imp (List.mem_of_getElem? hindex.symm)
    rw [hend] at hword
    cases hword
  unfold skipLine
  cases hrest : (tape.skipWhile (!·.isLineEnd)).rest with
  | nil =>
    have hstay : (tape.skipWhile (!·.isLineEnd)).advance = tape.skipWhile (!·.isLineEnd) := by
      simp only [advance, hrest]
    have hall := (tape.skipWhile (!·.isLineEnd)).position_add_remaining
    rw [remaining, hrest, List.length_nil, hreach.tokens_eq] at hall
    refine .inr ⟨fun k hk hend => ?_, by rw [hstay]; omega⟩
    obtain ⟨token, htoken, -⟩ := id hend
    have hbound := (List.getElem?_eq_some_iff.1 htoken).1
    exact hinside k hk (by omega) hend
  | cons next others =>
    have hpeek : (tape.skipWhile (!·.isLineEnd)).peek? = some next := by rw [peek?, hrest]; rfl
    have hend : next.isLineEnd = true := by
      have hnext := next_dropWhile (!·.isLineEnd) tape.rest next hpeek
      simpa using hnext
    have hindex := getElem?_of_peek? hpeek
    rw [hreach.tokens_eq] at hindex
    refine .inl ⟨(tape.skipWhile (!·.isLineEnd)).position, ⟨hle, ⟨next, hindex, hend⟩, hinside⟩, ?_⟩
    simp [advance, hrest, position]

/-- Passing a line passes its end, unless no token is left. -/
theorem exists_lineEnd (tape : Tape) (hleft : tape.skipLine.rest ≠ []) :
    ∃ k, tape.position ≤ k ∧ k < tape.skipLine.position ∧ LineEndsAt tape.tokens k := by
  rcases tape.behindLine_skipLine with ⟨k, hfirst, hstop⟩ | ⟨-, hstop⟩
  · exact ⟨k, hfirst.le, by omega, hfirst.here⟩
  · have hall := tape.skipLine.position_add_remaining
    have hpos : 0 < tape.skipLine.remaining := List.length_pos_iff.2 hleft
    rw [tape.reaches_skipLine.tokens_eq] at hall
    omega

end Tape

/-! ### Diagnostics so far -/

namespace Place

variable {place next : Place}

@[simp] theorem errors_add (place : Place) (node : Node) (tape : Tape) :
    (place.add node tape).tree.errors = place.tree.errors := by
  unfold add
  split <;> rfl

/-- One more member leaves the braces that opened the blocks. -/
theorem openers_add (place : Place) (node : Node) (tape : Tape) :
    (place.add node tape).blocks.map Frame.opener = place.blocks.map Frame.opener := by
  unfold add
  split <;> simp_all [Frame.add]

/-- A token and the end of a line behind it have been passed. -/
def LinePassed (tokens : List Token) (position : Nat) (token : Token) : Prop :=
  ∃ i k, tokens[i]? = some token ∧ i ≤ k ∧ k < position ∧ LineEndsAt tokens k

/-- The diagnostics so far are about tokens of the file and in the order of them, and the line of
each is passed as long as a token is left. -/
structure Ordered (tokens : List Token) (place : Place) : Prop where
  tokens_eq : place.tape.tokens = tokens
  openers : ∀ opener ∈ place.blocks.map Frame.opener, opener ∈ tokens
  within : ∀ diagnostic ∈ place.tree.errors, diagnostic.token ∈ tokens
  passed : place.tape.rest ≠ [] → ∀ diagnostic ∈ place.tree.errors, diagnostic.isFatal = false →
    LinePassed tokens place.tape.position diagnostic.token
  apart : (place.tree.errors.filter (!·.isFatal)).Pairwise fun first second =>
    LineApart tokens first.token second.token

theorem ordered_start (tokens : List Token) : (start tokens).Ordered tokens where
  tokens_eq := rfl
  openers := by simp [start]
  within := by simp [start]
  passed := by simp [start]
  apart := .nil

namespace Ordered

/-- Lines that were passed are passed later on. -/
theorem passed_of_reaches (h : place.Ordered tokens) (hreach : place.tape.Reaches after)
    (hleft : after.rest ≠ []) {diagnostic : Diagnostic} (hmem : diagnostic ∈ place.tree.errors)
    (hminor : diagnostic.isFatal = false) :
    LinePassed tokens after.position diagnostic.token := by
  obtain ⟨i, k, hi, hle, hlt, hend⟩ := h.passed (hreach.ne_nil hleft) diagnostic hmem hminor
  have hposition := hreach.position_le
  exact ⟨i, k, hi, hle, by omega, hend⟩

/-- A move without a diagnostic. -/
theorem of_reaches (h : place.Ordered tokens) (hreach : place.tape.Reaches next.tape)
    (herrors : next.tree.errors = place.tree.errors)
    (hopeners : ∀ opener ∈ next.blocks.map Frame.opener, opener ∈ tokens) :
    next.Ordered tokens where
  tokens_eq := hreach.tokens_eq.trans h.tokens_eq
  openers := hopeners
  within := herrors ▸ h.within
  passed hleft _ hmem hminor :=
    h.passed_of_reaches hreach hleft (herrors ▸ hmem) hminor
  apart := herrors ▸ h.apart

/-- A diagnostic with which reading goes on: its token is behind the lines of all the others. -/
theorem refuse (h : place.Ordered tokens) (hnodup : tokens.Nodup) {problem : Problem}
    (hleft : place.tape.skipBreaks.rest ≠ [])
    (hreports : place.tape.skipBreaks.Reports after token) (hminor : problem.isFatal = false) :
    (place.refuse problem token after).Ordered tokens := by
  have hskip := place.tape.reaches_skipBreaks
  have hreach := hskip.trans hreports.1
  have htokens : place.tape.skipBreaks.tokens = tokens := hskip.tokens_eq.trans h.tokens_eq
  obtain ⟨i, hi, hstart, hplace⟩ := hreports.exists_index hleft (htokens ▸ hnodup)
  have hstop : i ≤ after.position := by omega
  rw [htokens] at hi
  refine ⟨?_, h.openers, ?_, ?_, ?_⟩
  · exact (hreach.trans after.reaches_skipLine).tokens_eq.trans h.tokens_eq
  · intro diagnostic hmem
    rcases List.mem_append.1 hmem with hold | hnew
    · exact h.within diagnostic hold
    · rw [List.mem_singleton.1 hnew]
      exact List.mem_of_getElem? hi
  · intro hmore diagnostic hmem hdiagnostic
    rcases List.mem_append.1 hmem with hold | hnew
    · exact h.passed_of_reaches (hreach.trans after.reaches_skipLine) hmore hold hdiagnostic
    · rw [List.mem_singleton.1 hnew]
      obtain ⟨k, hk, hlt, hend⟩ := after.exists_lineEnd hmore
      rw [hreach.tokens_eq.trans h.tokens_eq] at hend
      exact ⟨i, k, hi, by omega, hlt, hend⟩
  · have hfilter : (place.refuse problem token after).tree.errors.filter (!·.isFatal) =
        place.tree.errors.filter (!·.isFatal) ++ [⟨problem, token⟩] := by
      simp [Place.refuse, Tree.report, Diagnostic.isFatal, hminor]
    rw [hfilter, List.pairwise_append]
    refine ⟨h.apart, List.pairwise_singleton _ _, ?_⟩
    intro earlier hearlier later hlater
    rw [List.mem_singleton.1 hlater]
    obtain ⟨hmem, hearly⟩ := List.mem_filter.1 hearlier
    obtain ⟨n, k, hn, hle, hlt, hend⟩ :=
      h.passed_of_reaches hskip hleft hmem (by simpa using hearly)
    exact ⟨n, k, i, hn, hi, hle, by omega, hend⟩

/-- A diagnostic with which reading ends, at the end of the tokens. -/
theorem abandon (h : place.Ordered tokens) {problem : Problem}
    (hreach : place.tape.Reaches after) (hend : after.rest = []) (hfatal : problem.isFatal = true)
    (htoken : token ∈ tokens) : (place.abandon problem token after).Ordered tokens := by
  refine ⟨hreach.tokens_eq.trans h.tokens_eq, by simp [Place.abandon], ?_, ?_, ?_⟩
  · intro diagnostic hmem
    rcases List.mem_append.1 hmem with hold | hnew
    · exact h.within diagnostic hold
    · rw [List.mem_singleton.1 hnew]
      exact htoken
  · intro hmore
    exact absurd hend hmore
  · have hfilter : (place.abandon problem token after).tree.errors.filter (!·.isFatal) =
        place.tree.errors.filter (!·.isFatal) := by
      simp [Place.abandon, Tree.report, Diagnostic.isFatal, hfatal]
    rw [hfilter]
    exact h.apart

/-- **Every move keeps the order.** -/
theorem of_move (h : place.Ordered tokens) (hnodup : tokens.Nodup)
    (hreach : place.tape.Reaches next.tape) (hmove : place.Move next) : next.Ordered tokens := by
  have hrest : ∀ {token}, token ∈ place.tape.rest → token ∈ tokens := by
    intro token hmem
    rw [← h.tokens_eq]
    exact List.mem_append_right _ hmem
  cases hmove with
  | whole =>
    refine h.of_reaches hreach (errors_add _ _ _) ?_
    rw [openers_add]
    exact h.openers
  | opened _ _ hstart =>
    refine h.of_reaches hreach rfl ?_
    have hopener := (Statement.opener_of_start hstart).1
    intro opener hmem
    rcases List.mem_cons.1 hmem with rfl | hbelow
    · exact hrest (Tape.mem_rest_of_reaches place.tape.reaches_skipBreaks hopener)
    · exact h.openers opener hbelow
  | closed _ _ hblocks =>
    refine h.of_reaches hreach (errors_add _ _ _) ?_
    rw [openers_add]
    intro opener hmem
    exact h.openers opener (by rw [hblocks]; exact List.mem_cons_of_mem _ hmem)
  | refused hleft hreports hminor => exact h.refuse hnodup hleft hreports hminor
  | abandoned hend hfatal htoken =>
    refine h.abandon hreach hend hfatal ?_
    rcases htoken with hmem | ⟨frame, hframe, rfl⟩
    · exact hrest hmem
    · exact h.openers _ (List.mem_map_of_mem hframe)

end Ordered

end Place

/-! ### Texts -/

/-- No two tokens of a text are the same: they stand at different places. -/
theorem nodup_tokenize (source : String) : (tokenize source).Nodup := by
  refine (tiling_tokenize source).ordered.imp ?_
  rintro a b hbefore rfl
  rcases hbefore with hline | ⟨-, hcolumn⟩
  · exact Nat.lt_irrefl _ hline
  · exact Nat.lt_irrefl _ hcolumn

/-- **Diagnostics are in the order of the text, one for a line at most.** Each points at a token of
the text, and no token occurs twice; of any two that do not end the file, the second points further
down, and the end of a line stands between them or is what the first points at. -/
theorem diagnostics_in_order (source : String) :
    (tokenize source).Nodup ∧
      (∀ diagnostic ∈ (Tree.ofSource source).errors, diagnostic.token ∈ tokenize source) ∧
      ((Tree.ofSource source).errors.filter (!·.isFatal)).Pairwise fun first second =>
        LineApart (tokenize source) first.token second.token := by
  have hnodup := nodup_tokenize source
  obtain ⟨last, hordered, htree⟩ := Tree.exists_last_of_moves
    (Place.ordered_start (tokenize source)) fun h hreach hmove => h.of_move hnodup hreach hmove
  have hwithin := hordered.within
  have hapart := hordered.apart
  rw [htree] at hwithin hapart
  exact ⟨hnodup, hwithin, hapart⟩

end ProtoSchema
