import ProtoSchema.Node.Basic
import ProtoSchema.Text.Case

/-!
# Equality of trees

Two trees are the same if they have the same shape and kinds and their texts agree up to ASCII case.
The text of a root does not count.

* `Node.same`: the comparison.
* `Node.normalize`: a tree with folded texts and empty roots.
-/

namespace ProtoSchema.Node

mutual

/-- Whether two trees are the same up to case and the texts of roots. Texts are left out if either
node is a root; as a root is the same as roots only, it is enough to ask this of the first node
once the kinds agree. -/
def same : Node → Node → Bool
  | ⟨kind, value, children⟩, ⟨kind', value', children'⟩ =>
    kind == kind' && (kind == .root || sameText value value') && sameAll children children'

/-- Whether two lists of trees are the same, tree by tree. -/
def sameAll : List Node → List Node → Bool
  | [], [] => true
  | node :: rest, node' :: rest' => same node node' && sameAll rest rest'
  | _, _ => false

end

mutual

/-- The tree with folded texts, and no text in its roots. -/
def normalize : Node → Node
  | ⟨kind, value, children⟩ =>
    ⟨kind, if kind = .root then "" else foldCase value, normalizeAll children⟩

/-- The trees with folded texts, and no text in their roots. -/
def normalizeAll : List Node → List Node
  | [] => []
  | node :: rest => normalize node :: normalizeAll rest

end

end ProtoSchema.Node
