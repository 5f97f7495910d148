import ProtoSchema.Proofs.Blocks
import ProtoSchema.Proofs.Meaning
import ProtoSchema.Schema.Parsed

/-!
# Every tree describes a well-formed file

Whatever the tokens are, and however many statements fail on the way, what is left in the tree
describes a file. The invariant is that the node of each open block, cut off where it is, has
members that fit in it, and that each block may stand in the one below it.

* `Grammar.Stacked`: the invariant for a stack of open blocks.
* `Frame.fits_run`: reading a body keeps it, so a block that is closed fits in the file.
* `Tree.block_ofTokens`: the root of every tree is a block of a file.
* `exists_file`, `wellFormed_file`: it describes a file, and the file is well formed.
-/

namespace ProtoSchema

namespace Grammar

variable {top next frame : Frame} {below : List Frame} {words rest : List Token} {node : Node}
  {statement : Statement}

/-- **The open blocks fit into each other**, the last one into a file. -/
def Stacked : Frame → List Frame → Prop
  | top, [] => top.scope ∈ blocksOf .file ∧ Block top.scope top.node
  | top, next :: below =>
    top.scope ∈ blocksOf next.scope ∧ Block top.scope top.node ∧ Stacked next below

theorem Stacked.block (h : Stacked top below) : Block top.scope top.node := by
  cases below with
  | nil => exact h.2
  | cons next others => exact h.2.1

/-- A member that fits may be added to the block on top. -/
theorem Stacked.add (h : Stacked top below) (hnode : Fits top.scope node) :
    Stacked (top.add node) below := by
  have hblock : Block top.scope (top.add node).node := h.block.append (by simpa using hnode)
  cases below with
  | nil => exact ⟨h.1, hblock⟩
  | cons next others => exact ⟨h.1, hblock, h.2.2⟩

/-- A block that is closed becomes a member of the one below. -/
theorem Stacked.close (h : Stacked top (next :: below)) : Stacked (next.add top.node) below :=
  h.2.2.add (h.2.1.fits h.1)

theorem fits_of_read {scope : Scope}
    (hmember : statement = .comment .line ∨ statement ∈ scope.members)
    (h : Read statement words rest (.whole node)) : Fits scope node := by
  rcases h with h | ⟨-, h, -⟩
  · refine h.fits (hmember.resolve_left ?_)
    rintro rfl
    cases h
  · exact h.fits

theorem block_of_read {scope : Scope}
    (hmember : statement = .comment .line ∨ statement ∈ scope.members)
    (h : Read statement words rest (.opened frame)) :
    frame.scope ∈ blocksOf scope ∧ Block frame.scope frame.node := by
  refine Opening.block h (hmember.resolve_left ?_)
  rintro rfl
  cases h with
  | named hblock _ => cases hblock

end Grammar

open Grammar Parse

/-- **A body that is read to its end fits in a file.** -/
theorem Frame.fits_run (top : Frame) (below : List Frame) (errors : List Diagnostic) (tape : Tape)
    (h : Stacked top below) : ∀ node ∈ (run top below errors tape).node, Fits .file node := by
  fun_induction run top below errors tape with
  | case1 => simp
  | case2 top errors tape token htoken hcloser after =>
    rintro _ ⟨⟩
    exact h.2.fits h.1
  -- a block that is closed, a line that is skipped, a member and a block that is opened
  | case3 top errors tape token htoken hcloser after next others ih => exact ih h.close
  | case4 top below errors tape token htoken hcloser hstatement ih => exact ih h
  | case5 top below errors tape token htoken hcloser statement hstatement node after hstart ih =>
    obtain ⟨words, -, hread⟩ := exists_read htoken hstatement hstart
    exact ih (h.add (fits_of_read (Scope.mem_members_of_statement? hstatement) hread))
  | case6 top below errors tape token htoken hcloser statement hstatement frame after hstart ih =>
    obtain ⟨words, -, hread⟩ := exists_read htoken hstatement hstart
    obtain ⟨hscope, hblock⟩ := block_of_read (Scope.mem_members_of_statement? hstatement) hread
    exact ih ⟨hscope, hblock, h⟩
  | case7 => simp
  | case8 top below errors tape token htoken hcloser statement hstatement diagnostic after hstart
      hfatal ih => exact ih h

namespace Tree

theorem fits_read {statement : Statement} {token : Token} {tape : Tape}
    (hpeek : tape.peek? = some token)
    (hstatement : Scope.file.statement? token.lexeme = some statement) :
    ∀ node ∈ (statement.read tape).node, Fits .file node := by
  have hmember := Scope.mem_members_of_statement? hstatement
  unfold Statement.read
  split <;> rename_i hstart
  · obtain ⟨words, -, hread⟩ := Frame.exists_read hpeek hstatement hstart
    rintro _ ⟨⟩
    exact fits_of_read hmember hread
  · obtain ⟨words, -, hread⟩ := Frame.exists_read hpeek hstatement hstart
    exact Frame.fits_run _ _ _ _ (block_of_read hmember hread)
  · simp

/-- **The root of a tree stays a block of a file**, whatever is read and whatever fails. -/
theorem block_readFrom (tree : Tree) (tape : Tape) (h : Block .file tree.root) :
    Block .file (readFrom tree tape).1.root := by
  fun_induction readFrom tree tape with
  | case1 => exact h
  | case2 tree tape token htoken hword statement hstatement outcome ih =>
    refine ih (h.append ?_)
    simpa using fits_read htoken hstatement
  | case3 _ _ _ _ _ _ ih => exact ih h
  | case4 _ _ _ _ _ ih => exact ih h

theorem block_ofTokens (tokens : List Token) : Block .file (ofTokens tokens).root :=
  block_readFrom _ _ (@Block.intro .file "" [] [] .file (by simp))

end Tree

/-- **Every list of tokens describes a file**, so parsing a text never fails: what is wrong with the
text is told by diagnostics beside the file. -/
theorem exists_file :
    (∀ tokens, ∃ file, File.ofNode (Tree.ofTokens tokens).root = .ok file) ∧
      ∀ source, ∃ file, parse source = .ok ⟨file, (Tree.ofSource source).errors⟩ := by
  have hfile : ∀ tokens, ∃ file, File.ofNode (Tree.ofTokens tokens).root = .ok file := by
    intro tokens
    obtain ⟨file, hread, -⟩ := (Tree.block_ofTokens tokens).file
    exact ⟨file, hread⟩
  refine ⟨hfile, fun source => ?_⟩
  obtain ⟨file, hread⟩ := hfile (tokenize source)
  refine ⟨file, ?_⟩
  rw [parse, Tree.ofSource, hread]
  rfl

/-- **Every file that tokens describe is well formed**, at any depth. -/
theorem wellFormed_file (tokens : List Token) :
    ∃ file, File.ofNode (Tree.ofTokens tokens).root = .ok file ∧ file.WellFormed .accepted :=
  (Tree.block_ofTokens tokens).file

end ProtoSchema
