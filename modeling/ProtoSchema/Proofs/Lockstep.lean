import ProtoSchema.Proofs.Coupled
import ProtoSchema.Proofs.Places
import ProtoSchema.Proofs.Scanning

/-!
# Steps side by side

Two files whose tapes are coupled are read in steps of the same kind. The places that they come to
are alike: the same blocks are open and the same statements were read, comments apart, and the
diagnostics differ at most in where their tokens stand. A comment is a step of its own kind, since
what it passes may differ.

* `Tape.afterComment?`: where a comment ends; `Place.proceed_comment` is the step over it.
* `Place.Like`: places that are alike.
* `Place.Like.proceed`: any other step from places that are alike.
* `Place.exists_steps`: what every step keeps is kept to the end.
-/

namespace ProtoSchema

open Parse

variable {tape tape' after after' : Tape} {token token' : Token}

/-! ### Comments -/

/-- Whether a word opens a comment. -/
def OpenComment.opens : OpenComment → String → Bool
  | line => Lexeme.opensLineComment
  | block => Lexeme.opensBlockComment

/-- The tape after a comment that a token opens, if the comment ends. -/
def Tape.afterComment? (tape : Tape) (opener : Token) : OpenComment → Option Tape
  | .line => some (tape.advance.skipWhile (!·.isLineEnd))
  | .block =>
    if Lexeme.closesBlockComment opener.lexeme then some tape.advance
    else
      let closer := tape.advance.skipWhile (!closesComment ·)
      closer.peek?.map fun _ => closer.advance

/-- The line break that ends a line is passed with those behind it. -/
theorem Tape.skipBreaks_skipLine (tape : Tape) :
    tape.skipLine.skipBreaks = (tape.skipWhile (!·.isLineEnd)).skipBreaks := by
  unfold skipLine
  cases hrest : (tape.skipWhile (!·.isLineEnd)).rest with
  | nil => simp only [advance, hrest]
  | cons token rest =>
    have hend : token.isLineEnd = true := by
      have hnext := next_dropWhile (!·.isLineEnd) tape.rest token (by
        rw [show tape.rest.dropWhile (!·.isLineEnd) = token :: rest from hrest]
        rfl)
      simpa using hnext
    have hadvance : (tape.skipWhile (!·.isLineEnd)).advance =
        ⟨token :: (tape.skipWhile (!·.isLineEnd)).seen, rest⟩ := by
      simp only [advance, hrest]
    rw [hadvance, ← Frame.skipBreaks_cons hend, ← hrest]

theorem Scope.opens_of_statement? {scope : Scope} {lexeme : String} {mark : OpenComment}
    (h : scope.statement? lexeme = some (.comment mark)) : mark.opens lexeme = true := by
  rcases statement?_cases h with ⟨hline, hmark⟩ | ⟨hblock, hmark⟩ | hopener | ⟨-, himplicit⟩
  · cases hmark
    exact hline
  · cases hmark
    exact hblock
  · have hall : ∀ opener ∈ scope.openers, opener.2 ≠ .comment mark := by
      cases scope <;> cases mark <;> decide
    exact absurd rfl (hall _ hopener)
  · rcases implicit?_cases himplicit with ⟨-, h, -⟩ | ⟨-, h, -⟩ | ⟨-, h, -⟩ <;> cases h

namespace Parse

theorem commentOpener_of_peek? {mark : OpenComment} {test : String → Bool}
    (hpeek : tape.peek? = some token) (htest : test token.lexeme = true) :
    commentOpener mark test tape = .ok token tape.advance := by
  unfold commentOpener Tape.takeIf
  rw [hpeek]
  simp [Option.filter, htest]

theorem lineComment_of_peek? (hpeek : tape.peek? = some token)
    (hopens : Lexeme.opensLineComment token.lexeme = true) :
    ∃ node, node.kind = .comment ∧
      lineComment tape = .ok node (tape.advance.skipWhile (!·.isLineEnd)) := by
  rw [lineComment, bind_apply, commentOpener_of_peek? hpeek hopens]
  exact ⟨_, rfl, rfl⟩

theorem blockComment_of_closes (hpeek : tape.peek? = some token)
    (hopens : Lexeme.opensBlockComment token.lexeme = true)
    (hcloses : Lexeme.closesBlockComment token.lexeme = true) :
    ∃ node, node.kind = .comment ∧ blockComment tape = .ok node tape.advance := by
  rw [blockComment, bind_apply, commentOpener_of_peek? hpeek hopens]
  simp only [hcloses, if_true]
  exact ⟨_, rfl, rfl⟩

theorem blockComment_of_open (hpeek : tape.peek? = some token)
    (hopens : Lexeme.opensBlockComment token.lexeme = true)
    (hcloses : Lexeme.closesBlockComment token.lexeme = false) :
    blockComment tape =
      (do
        let others ← takeUntil closesComment
        let closer ← commentCloser token
        return commentNode .block (blockCommentText token (others ++ [closer]))) tape.advance := by
  rw [blockComment, bind_apply, commentOpener_of_peek? hpeek hopens]
  simp only [hcloses, Bool.false_eq_true, if_false]

theorem whole_of_ok {parse : Parse Node} {node : Node} (h : parse tape = .ok node after) :
    whole parse tape = .ok (.whole node) after := by
  rw [whole, bind_apply, h]
  rfl

theorem whole_of_error {parse : Parse Node} {diagnostic : Diagnostic}
    (h : parse tape = .error diagnostic after) : whole parse tape = .error diagnostic after := by
  rw [whole, bind_apply, h]

end Parse

/-- A comment gives a node that is a comment, unless it does not end. -/
theorem Statement.start_comment {mark : OpenComment} (hpeek : tape.peek? = some token)
    (hopens : mark.opens token.lexeme = true) :
    (∃ after node, tape.afterComment? token mark = some after ∧ node.kind = Node.Kind.comment ∧
      start (.comment mark) tape = .ok (.whole node) after) ∨
    (tape.afterComment? token mark = none ∧ ∃ after, after.rest = [] ∧
      start (.comment mark) tape = .error ⟨.unterminatedComment, token⟩ after) := by
  cases mark with
  | line =>
    obtain ⟨node, hkind, hread⟩ := lineComment_of_peek? hpeek hopens
    exact .inl ⟨_, node, rfl, hkind, whole_of_ok hread⟩
  | block =>
    unfold Tape.afterComment?
    cases hcloses : Lexeme.closesBlockComment token.lexeme with
    | true =>
      obtain ⟨node, hkind, hread⟩ := blockComment_of_closes hpeek hopens hcloses
      exact .inl ⟨_, node, rfl, hkind, whole_of_ok hread⟩
    | false =>
      have hread := blockComment_of_open hpeek hopens hcloses
      rw [bind_apply] at hread
      simp only [takeUntil, bind_apply, commentCloser] at hread
      cases hcloser : (tape.advance.skipWhile (!closesComment ·)).peek? with
      | some closer =>
        rw [hcloser] at hread
        exact .inl ⟨_, _, by simp [hcloser], rfl, whole_of_ok hread⟩
      | none =>
        rw [hcloser] at hread
        exact .inr ⟨by simp [hcloser], _, Tape.rest_of_peek?_eq_none hcloser,
          whole_of_error hread⟩

namespace Place

variable {place place' next next' last : Place}

/-- A token that starts a statement of the scope is read as that statement. -/
theorem proceed_of_statement {statement : Statement} (hregular : token.Regular)
    (hstatement : place.scope.statement? token.lexeme = some statement) :
    place.proceed token tape = place.follow (statement.start tape) := by
  rw [← dispatch_of_some hstatement]
  cases hblocks : place.blocks with
  | nil =>
    rw [scope, hblocks] at hstatement
    exact proceed_of_word hblocks (isWord_of_statement? hregular hstatement)
  | cons top below => exact proceed_of_member hblocks (Grammar.isMark_of_statement? hstatement _)

/-- **The step over a comment.** -/
theorem proceed_comment {mark : OpenComment} (hregular : token.Regular)
    (hpeek : tape.peek? = some token)
    (hstatement : place.scope.statement? token.lexeme = some (.comment mark)) :
    (∃ after node, tape.afterComment? token mark = some after ∧ node.kind = Node.Kind.comment ∧
      place.proceed token tape = place.add node after) ∨
    (tape.afterComment? token mark = none ∧ ∃ after, after.rest = [] ∧
      place.proceed token tape = place.abandon .unterminatedComment token after) := by
  rw [proceed_of_statement hregular hstatement]
  rcases Statement.start_comment hpeek (Scope.opens_of_statement? hstatement) with
    ⟨after, node, hafter, hkind, hstart⟩ | ⟨hafter, after, hrest, hstart⟩
  · exact .inl ⟨after, node, hafter, hkind, by rw [hstart]; rfl⟩
  · exact .inr ⟨hafter, after, hrest, by rw [hstart]; rfl⟩

end Place

/-! ### Places that are alike -/

/-- Blocks that are alike: the same scope and, comments apart, the same node. -/
structure Frame.Like (frame frame' : Frame) : Prop where
  scope : frame'.scope = frame.scope
  opener : frame'.opener.shape = frame.opener.shape
  node : frame'.node.withoutComments = frame.node.withoutComments

/-- Diagnostics that differ at most in where their tokens stand. -/
def Diagnostic.Like (diagnostic diagnostic' : Diagnostic) : Prop :=
  diagnostic'.problem = diagnostic.problem ∧ diagnostic'.token.shape = diagnostic.token.shape

/-- Places where the same was read, comments apart, and the same blocks are open. -/
structure Place.Like (place place' : Place) : Prop where
  blocks : List.Forall₂ Frame.Like place.blocks place'.blocks
  root : place'.tree.root.withoutComments = place.tree.root.withoutComments
  errors : List.Forall₂ Diagnostic.Like place.tree.errors place'.tree.errors

theorem forall₂_of_common {α β γ : Type} {first : α → β → Prop} {second : α → γ → Prop}
    {third : β → γ → Prop} {xs : List α} {ys : List β} {zs : List γ}
    (hjoin : ∀ {x y z}, first x y → second x z → third y z) (h : List.Forall₂ first xs ys)
    (h' : List.Forall₂ second xs zs) : List.Forall₂ third ys zs := by
  induction h generalizing zs with
  | nil =>
    cases h'
    exact .nil
  | cons hhead _ ih =>
    cases h' with
    | cons hhead' htail' => exact .cons (hjoin hhead hhead') (ih htail')

/-- Places that are like a third one are alike. -/
theorem Place.Like.of_common {place place' middle : Place} (h : middle.Like place)
    (h' : middle.Like place') : place.Like place' where
  blocks := by
    refine forall₂_of_common (fun {_ _ _} first first' => ?_) h.blocks h'.blocks
    exact ⟨first'.scope.trans first.scope.symm, first'.opener.trans first.opener.symm,
      first'.node.trans first.node.symm⟩
  root := h'.root.trans h.root.symm
  errors := by
    refine forall₂_of_common (fun {_ _ _} first first' => ?_) h.errors h'.errors
    exact ⟨first'.1.trans first.1.symm, first'.2.trans first.2.symm⟩

/-- Tapes that correspond again once the line breaks in front are passed. -/
inductive Coupling.Resumes (coupling : Coupling) : Tape → Tape → Prop
  | rel {tape tape' : Tape} (h : coupling.rel tape tape') : Resumes coupling tape tape'
  | opened {tape tape' : Tape} (h : coupling.opened tape tape') : Resumes coupling tape tape'
  | line {tape tape' : Tape} (h : coupling.rel tape tape') :
      Resumes coupling tape.skipLine tape'.skipLine

namespace Coupling

variable {coupling : Coupling}

theorem shape_of_twin (coupling : Coupling) (h : coupling.twin token token') :
    token'.shape = token.shape := by
  obtain ⟨position, rfl⟩ := coupling.twin_eq h
  rfl

/-- Behind the closing brace of a body both readings pass a semicolon or none does. -/
theorem rel_afterBody (scope : Scope) (hkept : ∀ tape, coupling.kept tape)
    (hrel : coupling.rel tape tape') :
    coupling.rel (scope.afterBody tape) (scope.afterBody tape') := by
  unfold Scope.afterBody
  split
  · have hcouples : Couples coupling (coupling.along (Option.Rel coupling.twin))
        (accept? (·.isMark .semicolon)) (accept? (·.isMark .semicolon)) := couples_acceptMark rfl
    have hagrees := hcouples hrel (hkept _)
    unfold accept? at hagrees
    cases hagrees with
    | ok h => exact h.2
  · exact hrel

end Coupling

namespace Node

theorem withoutComments_append (node : Node) (nodes : List Node) :
    (node.append nodes).withoutComments =
      node.withoutComments.append (withoutCommentsAll nodes) := by
  cases node
  simp [append, withoutComments, withoutCommentsAll_append]

theorem withoutCommentsAll_congr {node node' : Node}
    (h : node'.withoutComments = node.withoutComments) :
    withoutCommentsAll [node'] = withoutCommentsAll [node] := by
  have hkind : node'.kind = node.kind := by
    rw [← kind_withoutComments node', h, kind_withoutComments]
  simp only [withoutCommentsAll, hkind, h]

theorem withoutCommentsAll_of_comment {node : Node} (h : node.kind = .comment) :
    withoutCommentsAll [node] = [] := by
  simp [withoutCommentsAll_eq, h]

end Node

open Node

theorem Frame.Like.add {frame frame' : Frame} {node node' : Node} (h : frame.Like frame')
    (hnode : withoutCommentsAll [node'] = withoutCommentsAll [node]) :
    (frame.add node).Like (frame'.add node') := by
  refine ⟨h.scope, h.opener, ?_⟩
  rw [Frame.add, Frame.add, push, push, withoutComments_append, withoutComments_append, h.node,
    hnode]

namespace Place

variable {place place' next next' last : Place} {node node' : Node}

namespace Like

theorem scope (h : place.Like place') : place'.scope = place.scope := by
  have hblocks := h.blocks
  unfold Place.scope
  generalize place.blocks = blocks at hblocks
  generalize place'.blocks = blocks' at hblocks
  cases hblocks with
  | nil => rfl
  | cons htop _ => exact htop.scope

theorem add (h : place.Like place')
    (hnode : withoutCommentsAll [node'] = withoutCommentsAll [node]) :
    (place.add node tape).Like (place'.add node' tape') := by
  obtain ⟨hblocks, hroot, herrors⟩ := h
  unfold Place.add
  generalize place.blocks = blocks at hblocks
  generalize place'.blocks = blocks' at hblocks
  cases hblocks with
  | nil =>
    refine ⟨.nil, ?_, herrors⟩
    simp only [Tree.extend, withoutComments_append, hroot, hnode]
  | cons htop hbelow => exact ⟨.cons (htop.add hnode) hbelow, hroot, herrors⟩

theorem refuse (h : place.Like place') {problem : Problem} (htoken : token'.shape = token.shape) :
    (place.refuse problem token tape).Like (place'.refuse problem token' tape') :=
  ⟨h.blocks, h.root, List.rel_append h.errors (.cons ⟨rfl, htoken⟩ .nil)⟩

theorem abandon (h : place.Like place') {problem : Problem} (htoken : token'.shape = token.shape) :
    (place.abandon problem token tape).Like (place'.abandon problem token' tape') :=
  ⟨.nil, h.root, List.rel_append h.errors (.cons ⟨rfl, htoken⟩ .nil)⟩

variable {coupling : Coupling}

/-- A statement that is read alike leads to places that are alike. -/
theorem follow (h : place.Like place')
    {result result' : EStateM.Result Diagnostic Tape Reading}
    (hagrees : coupling.Agrees coupling.Begun result result') :
    (place.follow result).Like (place'.follow result') ∧
      coupling.Resumes (place.follow result).tape (place'.follow result').tape := by
  cases hagrees with
  | ok hbegun =>
    cases hbegun with
    | whole hrel =>
      refine ⟨h.add rfl, ?_⟩
      simp only [Place.follow, tape_add]
      exact .rel hrel
    | opened htwin hopened =>
      have hframe := coupling.shape_of_twin htwin
      exact ⟨⟨.cons ⟨rfl, hframe, rfl⟩ h.blocks, h.root, h.errors⟩, .opened hopened⟩
  | @error problem token token' after after' hrel htwin hplace =>
    have hfatal : Diagnostic.isFatal ⟨problem, token'⟩ = Diagnostic.isFatal ⟨problem, token⟩ := rfl
    simp only [Place.follow, hfatal]
    split
    · exact ⟨h.abandon (coupling.shape_of_twin htwin), .rel hrel⟩
    · exact ⟨h.refuse (coupling.shape_of_twin htwin), .line hrel⟩

theorem dispatch (h : place.Like place') (hkept : ∀ tape, coupling.kept tape)
    (hrel : coupling.rel tape tape') (hregular : token.Regular) (hpeek : tape.peek? = some token)
    (htoken : token'.shape = token.shape)
    (hcomment : ∀ mark, place.scope.statement? token.lexeme ≠ some (.comment mark)) :
    (place.dispatch token tape).Like (place'.dispatch token' tape') ∧
      coupling.Resumes (place.dispatch token tape).tape (place'.dispatch token' tape').tape := by
  have hlexeme : token'.lexeme = token.lexeme := congrArg Prod.snd htoken
  cases hstatement : place.scope.statement? token.lexeme with
  | none =>
    rw [dispatch_of_none hstatement,
      dispatch_of_none (by rw [h.scope, hlexeme]; exact hstatement), h.scope]
    exact ⟨h.refuse htoken, .line hrel⟩
  | some statement =>
    rw [dispatch_of_some hstatement,
      dispatch_of_some (by rw [h.scope, hlexeme]; exact hstatement)]
    have hnot : ∀ mark, statement ≠ .comment mark := by
      rintro mark rfl
      exact hcomment mark hstatement
    refine h.follow (coupling.agrees_start statement hnot hrel ?_ (hkept _))
    intro _ first hfirst
    obtain rfl : token = first := Option.some.inj (hpeek.symm.trans hfirst)
    exact coupling.passes_of_inner hrel hpeek fun _ =>
      Scope.inner_of_statement? hregular hstatement hnot

/-- **A step that is no comment leads from places that are alike to such places.** -/
theorem proceed (h : place.Like place') (hkept : ∀ tape, coupling.kept tape)
    (hrel : coupling.rel tape tape') (hregular : token.Regular) (hpeek : tape.peek? = some token)
    (hcloser : token.isMark .closeBrace = true → coupling.passes token)
    (htoken : token'.shape = token.shape)
    (hcomment : ∀ mark, place.scope.statement? token.lexeme ≠ some (.comment mark)) :
    (place.proceed token tape).Like (place'.proceed token' tape') ∧
      coupling.Resumes (place.proceed token tape).tape (place'.proceed token' tape').tape := by
  have hdispatch := h.dispatch hkept hrel hregular hpeek htoken hcomment
  have hblocks := h.blocks
  cases hbelow : place.blocks with
  | nil =>
    rw [hbelow, List.forall₂_nil_left_iff] at hblocks
    have hkinds : token'.kind = token.kind := congrArg Prod.fst htoken
    have hword : token'.isWord = token.isWord := by rw [Token.isWord, Token.isWord, hkinds]
    cases hkind : token.isWord with
    | true =>
      rw [proceed_of_word hbelow hkind, proceed_of_word hblocks (by rw [hword, hkind])]
      exact hdispatch
    | false =>
      rw [proceed_of_stray hbelow hkind, proceed_of_stray hblocks (by rw [hword, hkind])]
      exact ⟨h.refuse htoken, .line hrel⟩
  | cons top below =>
    rw [hbelow] at hblocks
    obtain ⟨top', below', htop, hothers, hblocks'⟩ := List.forall₂_cons_left_iff.1 hblocks
    have hlexeme : token'.lexeme = token.lexeme := congrArg Prod.snd htoken
    have hsame : token'.isMark .closeBrace = token.isMark .closeBrace := by
      rw [Token.isMark, Token.isMark, hlexeme]
    cases hmark : token.isMark .closeBrace with
    | true =>
      rw [proceed_of_brace hbelow hmark, proceed_of_brace hblocks' (by rw [hsame, hmark]),
        tape_add, tape_add, htop.scope]
      have hbody : Like ⟨below, place.tree, tape⟩ ⟨below', place'.tree, tape'⟩ :=
        ⟨hothers, h.root, h.errors⟩
      refine ⟨hbody.add (withoutCommentsAll_congr htop.node), .rel ?_⟩
      exact coupling.rel_afterBody _ hkept
        (coupling.advance hrel hpeek (hcloser hmark) (hkept _))
    | false =>
      rw [proceed_of_member hbelow hmark, proceed_of_member hblocks' (by rw [hsame, hmark])]
      exact hdispatch

end Like

/-! ### Runs side by side -/

/-- From the places of a run the rest of it leads to the same end. -/
theorem Steps.of_step (h : place.Steps last) (hlast : last.step = none)
    (hstep : place.step = some next) : next.Steps last := by
  rcases h.cases_head with rfl | ⟨middle, hmiddle, hmore⟩
  · rw [hlast] at hstep
    cases hstep
  · -- a place has one step only
    rw [hstep] at hmiddle
    cases hmiddle
    exact hmore

/-- So does it from a place that a run comes to after some steps. -/
theorem Steps.of_steps (h : place.Steps last) (hlast : last.step = none)
    (hsteps : place.Steps next) : next.Steps last := by
  induction hsteps with
  | refl => exact h
  | tail _ hstep ih => exact ih.of_step hlast hstep

/-- **What every step keeps is kept to the end**: two runs from places that are related end at
places that are. -/
theorem exists_steps {related : Place → Place → Prop} {last' : Place}
    (hkeeps : ∀ {place place'}, related place place' →
      (place.step = none ∧ place'.step = none) ∨
        ∃ next next', place.step = some next ∧ place'.step = some next' ∧ related next next')
    (h : related place place') (hsteps : place.Steps last) (hlast : last.step = none)
    (hsteps' : place'.Steps last') (hlast' : last'.step = none) : related last last' := by
  induction hsteps using Relation.ReflTransGen.head_induction_on generalizing place' with
  | refl =>
    rcases hkeeps h with ⟨-, hend⟩ | ⟨next, next', hnext, -⟩
    · rcases hsteps'.cases_head with rfl | ⟨middle, hmiddle, -⟩
      · exact h
      · rw [hend] at hmiddle
        cases hmiddle
    · rw [hlast] at hnext
      cases hnext
  | head hstep _ ih =>
    rcases hkeeps h with ⟨hend, -⟩ | ⟨next, next', hnext, hnext', hrelated⟩
    · rw [hend] at hstep
      cases hstep
    · rw [hstep] at hnext
      cases hnext
      exact ih hrelated (hsteps'.of_step hlast' hnext')

end Place

end ProtoSchema
