import ProtoSchema.Node.Same
import ProtoSchema.Statement.Body
import ProtoSchema.Token.Lexer

/-!
# The parse tree of a file

A file is read statement by statement to its end. Statements that fail are skipped and reported, so
a single pass finds every one of them.

* `Tree.ofTokens`: the tree of a list of tokens, whatever they are.
* `Tree.ofSource`: the tree of a text.
-/

namespace ProtoSchema

/-- A root with the statements of a file, and the diagnostics met while reading them. -/
structure Tree where
  root : Node := .emptyRoot
  errors : List Diagnostic := []
deriving DecidableEq, Repr

namespace Tree

/-- Whether there are diagnostics. -/
def hasErrors (tree : Tree) : Bool := !tree.errors.isEmpty

/-- The kinds of the statements that were read. -/
def statements (tree : Tree) : List Node.Kind := tree.root.children.map Node.kind

/-- The tree with one more diagnostic. -/
def report (tree : Tree) (problem : Problem) (token : Token) : Tree :=
  { tree with errors := tree.errors ++ [⟨problem, token⟩] }

/-- The tree with what a statement led to. -/
def add (tree : Tree) (outcome : Outcome) : Tree :=
  ⟨tree.root.append outcome.node.toList, tree.errors ++ outcome.errors⟩

/-- Reads statements to the end of the tape. -/
def readFrom (tree : Tree) (tape : Tape) : Tree × Tape :=
  match _htoken : tape.skipBreaks.peek? with
  | none => (tree, tape.skipBreaks)
  | some token =>
    if token.isWord then
      match Scope.file.statement? token.lexeme with
      | some statement =>
        let outcome := statement.read tape.skipBreaks
        readFrom (tree.add outcome) outcome.tape
      | none => readFrom (tree.report Scope.file.refusal token) tape.skipBreaks.skipLine
    else readFrom (tree.report .strayToken token) tape.skipBreaks.skipLine
termination_by tape.remaining
decreasing_by
  all_goals
    have hskip := tape.reaches_skipBreaks.remaining_le
    have hpos := Tape.remaining_pos_of_peek? _htoken
    have hline := Tape.skipLine_shorter hpos (.refl _)
  · have hread := statement.read_shorter hpos
    omega
  · omega
  · omega

/-- The tree of a list of tokens. -/
def ofTokens (tokens : List Token) : Tree := (readFrom {} (.ofTokens tokens)).1

/-- The tree of a text. -/
def ofSource (source : String) : Tree := ofTokens (tokenize source)

/-- Whether two trees are the same; the diagnostics do not count. -/
def same (a b : Tree) : Bool := a.root.same b.root

/-- Whether two trees have the same diagnostics. -/
def sameErrors (a b : Tree) : Bool := a.errors.isEqv b.errors Diagnostic.same

end Tree

end ProtoSchema
