import Mathlib.Logic.Relation
import ProtoSchema.Proofs.Outcomes

/-!
# Reading as steps between places

A file is read by a loop over its statements, and the body of a block by a loop over its members
inside that one. Both are steps of one kind: from a place between statements, where some blocks are
open, over one statement, one header, one closing brace or one line that is skipped, to the next
such place.

* `Place.step`: one step; there is none from the end of a file.
* `Place.reaches_step`, `Place.size_step`: a step only passes tokens, and makes progress.
* `Frame.steps_run`: a body is read in steps.
* `Tree.steps_readFrom`: a file is read in steps, to its end.
-/

namespace ProtoSchema

open Parse

/-- A place between statements: the blocks that are open there, the innermost first, what has been
read of the file, and the tokens. -/
structure Place where
  blocks : List Frame
  tree : Tree
  tape : Tape
deriving DecidableEq, Repr

namespace Place

variable {place next : Place} {token : Token} {tape after : Tape}

/-- The place before the first token. -/
def start (tokens : List Token) : Place := ⟨[], {}, .ofTokens tokens⟩

/-- Where the statements of a place stand. -/
def scope (place : Place) : Scope :=
  match place.blocks with
  | [] => .file
  | top :: _ => top.scope

/-- The place after a statement that was read whole. -/
def add (place : Place) (node : Node) (tape : Tape) : Place :=
  match place.blocks with
  | [] => ⟨[], place.tree.extend [node], tape⟩
  | top :: below => ⟨top.add node :: below, place.tree, tape⟩

/-- The place after a diagnostic from which reading goes on. -/
def refuse (place : Place) (problem : Problem) (token : Token) (tape : Tape) : Place :=
  ⟨place.blocks, place.tree.report problem token, tape.skipLine⟩

/-- The place after a diagnostic with which reading ends. -/
def abandon (place : Place) (problem : Problem) (token : Token) (tape : Tape) : Place :=
  ⟨[], place.tree.report problem token, tape⟩

/-- The place that reading a statement leads to. -/
def follow (place : Place) : EStateM.Result Diagnostic Tape Reading → Place
  | .ok (.whole node) after => place.add node after
  | .ok (.opened frame) after => ⟨frame :: place.blocks, place.tree, after⟩
  | .error diagnostic after =>
    if diagnostic.isFatal then place.abandon diagnostic.problem diagnostic.token after
    else place.refuse diagnostic.problem diagnostic.token after

/-- The place after the statement that starts with a token, or after its line if it starts none. -/
def dispatch (place : Place) (token : Token) (tape : Tape) : Place :=
  match place.scope.statement? token.lexeme with
  | none => place.refuse place.scope.refusal token tape
  | some statement => place.follow (statement.start tape)

/-- The place after a token, which is the next one, and what starts with it. -/
def proceed (place : Place) (token : Token) (tape : Tape) : Place :=
  match place.blocks with
  | [] => if token.isWord then place.dispatch token tape else place.refuse .strayToken token tape
  | top :: below =>
    if token.isMark .closeBrace then
      add ⟨below, place.tree, tape⟩ top.node (top.scope.afterBody tape.advance)
    else place.dispatch token tape

/-- One step: over what comes next, or out of the open blocks where nothing does. -/
def step (place : Place) : Option Place :=
  match place.tape.skipBreaks.peek?, place.blocks with
  | some token, _ => some (place.proceed token place.tape.skipBreaks)
  | none, [] => none
  | none, top :: _ =>
    some (place.abandon (.unterminatedBody top.scope) top.opener place.tape.skipBreaks)

/-- A place leads to another in any number of steps. -/
def Steps : Place → Place → Prop :=
  Relation.ReflTransGen fun place next => place.step = some next

theorem step_of_peek? (h : place.tape.skipBreaks.peek? = some token) :
    place.step = some (place.proceed token place.tape.skipBreaks) := by
  rw [step, h]

theorem steps_of_peek? (h : place.tape.skipBreaks.peek? = some token)
    (hnext : (place.proceed token place.tape.skipBreaks).Steps next) : place.Steps next :=
  .head (step_of_peek? h) hnext

theorem dispatch_of_none (h : place.scope.statement? token.lexeme = none) :
    place.dispatch token tape = place.refuse place.scope.refusal token tape := by
  rw [dispatch, h]

theorem dispatch_of_some {statement : Statement}
    (h : place.scope.statement? token.lexeme = some statement) :
    place.dispatch token tape = place.follow (statement.start tape) := by
  rw [dispatch, h]

theorem proceed_of_brace {top : Frame} {below : List Frame} (hblocks : place.blocks = top :: below)
    (h : token.isMark .closeBrace = true) :
    place.proceed token tape =
      add ⟨below, place.tree, tape⟩ top.node (top.scope.afterBody tape.advance) := by
  rw [proceed, hblocks]
  simp only [h, if_true]

theorem proceed_of_member {top : Frame} {below : List Frame} (hblocks : place.blocks = top :: below)
    (h : token.isMark .closeBrace = false) :
    place.proceed token tape = place.dispatch token tape := by
  rw [proceed, hblocks]
  simp only [h, Bool.false_eq_true, if_false]

theorem proceed_of_word (hblocks : place.blocks = []) (h : token.isWord = true) :
    place.proceed token tape = place.dispatch token tape := by
  rw [proceed, hblocks]
  simp only [h, if_true]

theorem proceed_of_stray (hblocks : place.blocks = []) (h : token.isWord = false) :
    place.proceed token tape = place.refuse .strayToken token tape := by
  rw [proceed, hblocks]
  simp only [h, Bool.false_eq_true, if_false]

@[simp] theorem tape_add (place : Place) (node : Node) (tape : Tape) :
    (place.add node tape).tape = tape := by
  unfold add
  split <;> rfl

@[simp] theorem blocks_add (place : Place) (node : Node) (tape : Tape) :
    (place.add node tape).blocks.length = place.blocks.length := by
  unfold add
  split <;> simp_all

/-! ### Progress -/

/-- What a step makes smaller: tokens count twice, since one may open a block. -/
def size (place : Place) : Nat := 2 * place.tape.remaining + place.blocks.length

theorem reaches_dispatch (place : Place) (token : Token) (tape : Tape) :
    tape.Reaches (place.dispatch token tape).tape := by
  unfold dispatch
  split
  · exact tape.reaches_skipLine
  · rename_i statement _
    unfold follow
    split <;> rename_i hstart
    · rw [tape_add]
      exact Lawful.reaches_of_ok hstart
    · exact Lawful.reaches_of_ok hstart
    · split
      · exact Lawful.reaches_of_error hstart
      · exact (Lawful.reaches_of_error hstart).trans (Tape.reaches_skipLine _)

theorem reaches_proceed (place : Place) (token : Token) (tape : Tape) :
    tape.Reaches (place.proceed token tape).tape := by
  unfold proceed
  split
  · split
    · exact place.reaches_dispatch token tape
    · exact tape.reaches_skipLine
  · split
    · rw [tape_add]
      exact tape.reaches_advance.trans (Frame.reaches_afterBody _ _)
    · exact place.reaches_dispatch token tape

/-- **A step only passes tokens.** -/
theorem reaches_step (h : place.step = some next) : place.tape.Reaches next.tape := by
  refine place.tape.reaches_skipBreaks.trans ?_
  unfold step at h
  split at h
  · cases h
    exact place.reaches_proceed _ _
  · cases h
  · cases h
    exact .refl _

/-- **Steps only pass tokens.** -/
theorem reaches_steps (h : place.Steps next) : place.tape.Reaches next.tape := by
  induction h with
  | refl => exact .refl _
  | tail _ hstep ih => exact ih.trans (reaches_step hstep)

/-- What starts with a token passes it, and opens at most one block. -/
theorem remaining_dispatch (h : tape.peek? = some token) :
    (place.dispatch token tape).tape.remaining < tape.remaining ∧
      (place.dispatch token tape).blocks.length ≤ place.blocks.length + 1 := by
  have hpos := Tape.remaining_pos_of_peek? h
  unfold dispatch
  split
  · exact ⟨Tape.skipLine_shorter hpos (.refl _), Nat.le_succ _⟩
  · rename_i statement _
    unfold follow
    split <;> rename_i hstart
    · rw [tape_add, blocks_add]
      exact ⟨Consumes.shorter hstart, Nat.le_succ _⟩
    · exact ⟨Consumes.shorter hstart, Nat.le_refl _⟩
    · split
      · -- a fatal diagnostic passes no line, but it is one at the end
        rename_i diagnostic after hfatal
        have hrest := Lawful.rest_of_fatal hstart hfatal
        refine ⟨?_, Nat.zero_le _⟩
        simpa [abandon, Tape.remaining, hrest] using hpos
      · exact ⟨Tape.skipLine_shorter hpos (Lawful.reaches_of_error hstart), Nat.le_succ _⟩

theorem remaining_proceed (h : tape.peek? = some token) :
    (place.proceed token tape).tape.remaining < tape.remaining ∧
      (place.proceed token tape).blocks.length ≤ place.blocks.length + 1 := by
  have hpos := Tape.remaining_pos_of_peek? h
  have hline := Tape.skipLine_shorter hpos (.refl _)
  unfold proceed
  split
  · split
    · exact remaining_dispatch h
    · exact ⟨hline, Nat.le_succ _⟩
  · rename_i top below hblocks
    split
    · -- the brace is passed, and the block it closes is no longer open
      have hbrace := Tape.advance_shorter hpos
      have hbody := (Frame.reaches_afterBody top.scope tape.advance).remaining_le
      rw [tape_add, blocks_add, hblocks, List.length_cons]
      exact ⟨by omega, by simp only; omega⟩
    · exact remaining_dispatch h

/-- **A step makes progress**: it passes a token, or leaves the blocks that are open at the end. -/
theorem size_step (h : place.step = some next) : next.size < place.size := by
  have hskip := place.tape.skipBreaks_remaining_le
  unfold step at h
  split at h
  · rename_i token hpeek
    cases h
    have hnext := @remaining_proceed place _ _ hpeek
    unfold size
    omega
  · cases h
  · rename_i top below _ hblocks
    cases h
    simp only [size, abandon, hblocks, List.length_nil, List.length_cons]
    omega

end Place

/-! ### Bodies and files in steps -/

namespace Tree

/-- The tree with more diagnostics. -/
def withErrors (tree : Tree) (errors : List Diagnostic) : Tree :=
  { tree with errors := tree.errors ++ errors }

@[simp] theorem withErrors_nil (tree : Tree) : tree.withErrors [] = tree := by
  simp [withErrors]

theorem report_withErrors (tree : Tree) (errors : List Diagnostic) (problem : Problem)
    (token : Token) :
    (tree.withErrors errors).report problem token =
      tree.withErrors (errors ++ [⟨problem, token⟩]) := by
  simp [withErrors, report]

theorem withErrors_eq_add (tree : Tree) (errors : List Diagnostic) (tape : Tape) :
    tree.withErrors errors = tree.add ⟨none, errors, tape⟩ := by
  simp [withErrors, add]

end Tree

open Place

/-- A member that starts a statement is read as far as it goes without a body. -/
theorem Place.proceed_statement {top : Frame} {below : List Frame} {tree : Tree} {tape after : Tape}
    {token : Token} {statement : Statement} (hmark : ¬token.isMark .closeBrace = true)
    (hstatement : top.scope.statement? token.lexeme = some statement) :
    Place.proceed ⟨top :: below, tree, tape⟩ token after =
      follow ⟨top :: below, tree, tape⟩ (statement.start after) := by
  rw [proceed_of_member rfl (by simpa using hmark)]
  exact dispatch_of_some hstatement

/-- **A body is read in steps**, from the place where its blocks are open to the place after it. -/
theorem Frame.steps_run (tree : Tree) (top : Frame) (below : List Frame) (errors : List Diagnostic)
    (tape : Tape) :
    Steps ⟨top :: below, tree.withErrors errors, tape⟩
      ⟨[], tree.add (run top below errors tape), (run top below errors tape).tape⟩ := by
  fun_induction run top below errors tape with
  | case1 top below errors tape htoken =>
    refine .single ?_
    simp only [step, htoken, abandon, Tree.report_withErrors]
    rw [Tree.withErrors_eq_add]
  | case2 top errors tape token htoken hmark =>
    refine .single ?_
    rw [step_of_peek? htoken, proceed_of_brace rfl hmark]
    rfl
  | case3 top errors tape token htoken hmark after next others ih =>
    refine steps_of_peek? htoken ?_
    rw [proceed_of_brace rfl hmark]
    exact ih
  | case4 top below errors tape token htoken hmark hstatement ih =>
    refine steps_of_peek? htoken ?_
    rw [proceed_of_member rfl (by simpa using hmark), dispatch_of_none (by exact hstatement),
      refuse, Tree.report_withErrors]
    exact ih
  | case5 top below errors tape token htoken hmark statement hstatement node after hstart ih =>
    refine steps_of_peek? htoken ?_
    rw [proceed_statement hmark hstatement, hstart]
    exact ih
  | case6 top below errors tape token htoken hmark statement hstatement frame after hstart ih =>
    refine steps_of_peek? htoken ?_
    rw [proceed_statement hmark hstatement, hstart]
    exact ih
  | case7 top below errors tape token htoken hmark statement hstatement diagnostic after hstart
      hfatal =>
    refine steps_of_peek? htoken ?_
    rw [proceed_statement hmark hstatement, hstart, follow,
      if_pos hfatal, abandon, Tree.report_withErrors, Tree.withErrors_eq_add]
    exact .refl
  | case8 top below errors tape token htoken hmark statement hstatement diagnostic after hstart
      hfatal ih =>
    refine steps_of_peek? htoken ?_
    rw [proceed_statement hmark hstatement, hstart, follow,
      if_neg hfatal, refuse, Tree.report_withErrors]
    exact ih

namespace Tree

variable {tree : Tree} {tape : Tape} {token : Token}

/-- A statement of a file is read in steps. -/
theorem steps_read {statement : Statement} (hpeek : tape.skipBreaks.peek? = some token)
    (hword : token.isWord = true)
    (hstatement : Scope.file.statement? token.lexeme = some statement) :
    Steps ⟨[], tree, tape⟩
      ⟨[], tree.add (statement.read tape.skipBreaks), (statement.read tape.skipBreaks).tape⟩ := by
  refine steps_of_peek? hpeek ?_
  rw [proceed_of_word rfl hword, dispatch_of_some (by exact hstatement), Statement.read]
  cases hstart : statement.start tape.skipBreaks with
  | error diagnostic after =>
    simp only [follow, Diagnostic.resume, abandon, refuse]
    split <;> exact withErrors_eq_add tree [diagnostic] _ ▸ .refl
  | ok reading after =>
    cases reading with
    | whole node =>
      rw [add_whole]
      exact .refl
    | opened frame =>
      have hrun := frame.steps_run tree [] [] after
      rwa [withErrors_nil] at hrun

/-- **A file is read in steps**, and the place at which they end is that of the last token. -/
theorem steps_readFrom (tree : Tree) (tape : Tape) :
    ∃ last, Steps ⟨[], tree, tape⟩ ⟨[], (readFrom tree tape).1, last⟩ ∧
      last.skipBreaks = (readFrom tree tape).2 ∧ (readFrom tree tape).2.rest = [] := by
  fun_induction readFrom tree tape with
  | case1 tree tape htoken => exact ⟨tape, .refl, rfl, Tape.rest_of_peek?_eq_none htoken⟩
  | case2 tree tape token htoken hword statement hstatement outcome ih =>
    obtain ⟨last, hsteps, hlast⟩ := ih
    exact ⟨last, (steps_read htoken hword hstatement).trans hsteps, hlast⟩
  | case3 tree tape token htoken hword hstatement ih =>
    obtain ⟨last, hsteps, hlast⟩ := ih
    refine ⟨last, steps_of_peek? htoken ?_, hlast⟩
    rw [proceed_of_word rfl hword, dispatch_of_none (by exact hstatement)]
    exact hsteps
  | case4 tree tape token htoken hword ih =>
    obtain ⟨last, hsteps, hlast⟩ := ih
    refine ⟨last, steps_of_peek? htoken ?_, hlast⟩
    rw [proceed_of_stray rfl (by simpa using hword)]
    exact hsteps

/-- From the place where the steps of a file end there is none. -/
theorem step_of_end (h : tape.skipBreaks.rest = []) : Place.step ⟨[], tree, tape⟩ = none := by
  have hpeek : tape.skipBreaks.peek? = none := by rw [Tape.peek?, h]; rfl
  simp only [step, hpeek]

/-- **The steps from the first token end with the tree of the file.** -/
theorem exists_run (tokens : List Token) :
    ∃ last, (Place.start tokens).Steps last ∧ last.step = none ∧ last.tree = ofTokens tokens := by
  obtain ⟨last, hsteps, hlast, hrest⟩ := steps_readFrom {} (.ofTokens tokens)
  exact ⟨_, hsteps, step_of_end (hlast ▸ hrest), rfl⟩

end Tree

end ProtoSchema
