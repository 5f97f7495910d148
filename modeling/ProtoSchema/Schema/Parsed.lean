import ProtoSchema.Schema.OfNode.File
import ProtoSchema.Tree

/-!
# Parsing schema files

A text is read into tokens, the tokens into a tree, and the tree into a file. Statements that cannot
be read are left out of the file and reported beside it.

* `parse`: the file that a text describes, with the statements that were skipped on the way.
-/

namespace ProtoSchema

/-- A schema file and the diagnostics of its text. -/
structure Parsed where
  file : File
  errors : List Diagnostic
deriving DecidableEq, Repr

namespace Parsed

/-- Whether every statement was well formed. -/
def isClean (parsed : Parsed) : Bool := parsed.errors.isEmpty

/-- Whether two texts gave the same file and the same diagnostics. -/
def same (a b : Parsed) : Bool := a.file.same b.file && a.errors.isEqv b.errors Diagnostic.same

end Parsed

/-- The schema file that a text describes. -/
def parse (source : String) : Described Parsed := do
  let tree := Tree.ofSource source
  let file ← File.ofNode tree.root
  return ⟨file, tree.errors⟩

end ProtoSchema
