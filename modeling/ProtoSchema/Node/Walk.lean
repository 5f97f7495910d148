import ProtoSchema.Node.Basic

/-!
# Walking through a tree

A walk visits a node, then its children from first to last, each with all its descendants. It keeps
the nodes still to be visited on a stack.

* `Node.walk`: every node of a tree with its depth, in visiting order.
* `Node.preorder`: the same order by recursion on the tree.
* `Node.display`: one line for each node, indented by its depth.
-/

namespace ProtoSchema.Node

/-- The nodes of a list at a depth. -/
def atDepth (depth : Nat) (nodes : List Node) : List (Node × Nat) := nodes.map (·, depth)

theorem map_fst_atDepth (depth : Nat) (nodes : List Node) :
    (atDepth depth nodes).map Prod.fst = nodes := by
  simp [atDepth, Function.comp_def]

/-- Visits the top of the stack and puts its children in its place. -/
def walkStack : List (Node × Nat) → List (Node × Nat)
  | [] => []
  | (node, depth) :: below =>
    (node, depth) :: walkStack (atDepth (depth + 1) node.children ++ below)
termination_by stack => countAll (stack.map Prod.fst)
decreasing_by
  rw [List.map_append, map_fst_atDepth, countAll_append, List.map_cons, countAll, count_eq]
  simp only
  omega

/-- Every node of a tree with its depth, in visiting order. -/
def walk (node : Node) : List (Node × Nat) := walkStack [(node, 0)]

mutual

/-- The nodes of a tree from a depth on, a node before its children. -/
def preorder (depth : Nat) : Node → List (Node × Nat)
  | ⟨kind, value, children⟩ =>
    (⟨kind, value, children⟩, depth) :: preorderAll (depth + 1) children

/-- The nodes of several trees from a depth on. -/
def preorderAll (depth : Nat) : List Node → List (Node × Nat)
  | [] => []
  | node :: rest => preorder depth node ++ preorderAll depth rest

end

/-- The line that shows a node at a depth: its kind and, unless it is empty, its text in quotes. -/
def displayLine (node : Node) (depth : Nat) : String :=
  let indent := String.ofList (List.replicate (2 * depth) ' ')
  if node.value = "" then s!"{indent}{node.kind.label}\n"
  else s!"{indent}{node.kind.label} '{node.value}'\n"

/-- The lines of all nodes in visiting order. -/
def display (node : Node) : String :=
  String.join (node.walk.map fun entry => entry.1.displayLine entry.2)

end ProtoSchema.Node
