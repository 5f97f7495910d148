import ProtoSchema.Node.Walk

/-!
# The order of a walk

A walk keeps the nodes still to be visited on a stack. Each turn takes the top off, visits it and
pushes its children, the last one first. What a stack has yet to give is the preorder of its trees,
so every walk ends, and it visits a tree as recursion would: a node before all that is below it, and
all that is below a child before the next child.

* `Node.turn`: one turn of a walk; `Node.Walks`: the turns from a stack to the empty one.
* `Node.walkStack_eq`: a stack gives the preorder of its trees.
* `Node.descendant?`, `Node.Before`: the places in a tree and their order.
* `Node.walk_in_preorder`: a walk ends and visits every place of a tree once, in order.
-/

namespace ProtoSchema.Node

variable {node : Node} {nodes : List Node} {index : Nat} {path path' : List Nat}

/-! ### Turns -/

/-- Puts a node at a depth on top of a stack. -/
def pushAt (depth : Nat) (stack : List (Node × Nat)) (node : Node) : List (Node × Nat) :=
  (node, depth) :: stack

/-- One turn of a walk: the node that is visited, and the stack with its children pushed in its
place from the last one to the first. -/
def turn : List (Node × Nat) → Option ((Node × Nat) × List (Node × Nat))
  | [] => none
  | (node, depth) :: below =>
    some ((node, depth), node.children.reverse.foldl (pushAt (depth + 1)) below)

/-- The turns from a stack visit these nodes until the stack is empty. -/
inductive Walks : List (Node × Nat) → List (Node × Nat) → Prop
  | done {stack : List (Node × Nat)} (h : turn stack = none) : Walks stack []
  | step {stack after visited : List (Node × Nat)} {entry : Node × Nat}
      (h : turn stack = some (entry, after)) (hafter : Walks after visited) :
      Walks stack (entry :: visited)

theorem foldl_pushAt (depth : Nat) (nodes : List Node) (below : List (Node × Nat)) :
    nodes.reverse.foldl (pushAt depth) below = atDepth depth nodes ++ below := by
  rw [List.foldl_reverse]
  induction nodes with
  | nil => rfl
  | cons node rest ih => rw [List.foldr_cons, ih]; rfl

theorem walks_walkStack (stack : List (Node × Nat)) : Walks stack (walkStack stack) := by
  fun_induction walkStack stack with
  | case1 => exact .done rfl
  | case2 node depth below ih => exact .step (by rw [turn, foldl_pushAt]) ih

/-- A walk takes as many turns as there are nodes. -/
theorem length_walkStack (stack : List (Node × Nat)) :
    (walkStack stack).length = countAll (stack.map Prod.fst) := by
  fun_induction walkStack stack with
  | case1 => rfl
  | case2 node depth below ih =>
    have hcount := node.count_eq
    simp only [List.length_cons, ih, List.map_append, map_fst_atDepth, countAll_append,
      List.map_cons, countAll]
    omega

/-! ### What a stack has yet to give -/

/-- The preorder of the trees on a stack, from the top down. -/
def pending (stack : List (Node × Nat)) : List (Node × Nat) :=
  stack.flatMap fun entry => preorder entry.2 entry.1

theorem pending_append (first second : List (Node × Nat)) :
    pending (first ++ second) = pending first ++ pending second :=
  List.flatMap_append

theorem pending_atDepth (depth : Nat) (nodes : List Node) :
    pending (atDepth depth nodes) = preorderAll depth nodes := by
  induction nodes with
  | nil => rfl
  | cons node rest ih => rw [preorderAll, ← ih]; rfl

/-- A turn takes the first node off what a stack has yet to give. -/
theorem pending_cons (node : Node) (depth : Nat) (below : List (Node × Nat)) :
    pending ((node, depth) :: below) =
      (node, depth) :: pending (atDepth (depth + 1) node.children ++ below) := by
  obtain ⟨kind, value, children⟩ := node
  rw [pending_append, pending_atDepth, pending, List.flatMap_cons, preorder]
  rfl

/-- **A stack gives the preorder of its trees.** -/
theorem walkStack_eq (stack : List (Node × Nat)) : walkStack stack = pending stack := by
  fun_induction walkStack stack with
  | case1 => rfl
  | case2 node depth below ih => rw [ih, pending_cons]

theorem walk_eq (node : Node) : node.walk = node.preorder 0 := by
  rw [walk, walkStack_eq, pending, List.flatMap_singleton]

/-! ### Places -/

/-- The node that a path leads to, each number of the path choosing a child. -/
def descendant? (node : Node) : List Nat → Option Node
  | [] => some node
  | index :: path => node.children[index]?.bind (descendant? · path)

/-- A place comes before those below it, and what is at or below a child comes before what is at or
below a later child. -/
inductive Before : List Nat → List Nat → Prop
  | below (path : List Nat) (index : Nat) (more : List Nat) : Before path (path ++ index :: more)
  | aside (path : List Nat) {index later : Nat} (h : index < later) (more more' : List Nat) :
      Before (path ++ index :: more) (path ++ later :: more')

theorem Before.cons (index : Nat) (h : Before path path') :
    Before (index :: path) (index :: path') := by
  cases h with
  | below path child more => exact .below (index :: path) child more
  | aside path hlt more more' => exact .aside (index :: path) hlt more more'

theorem Before.ne (h : Before path path') : path ≠ path' := by
  cases h with
  | below path child more => simp
  | aside path hlt more more' =>
    intro heq
    have hindex := (List.cons.inj (List.append_cancel_left heq)).1
    omega

/-- Places with their nodes are all places of a tree, each of them once and in order. -/
structure InOrder (root : Node) (places : List (List Nat × Node)) : Prop where
  everywhere (path : List Nat) (node : Node) :
    (path, node) ∈ places ↔ root.descendant? path = some node
  once : (places.map Prod.fst).Nodup
  ordered : (places.map Prod.fst).Pairwise Before

/-- Moves a place into the tree of a parent, below the child of a number. -/
def underChild (index : Nat) (place : List Nat × Node) : List Nat × Node :=
  (index :: place.1, place.2)

mutual

/-- The places of a tree with their nodes, a place before those below it. -/
def places : Node → List (List Nat × Node)
  | ⟨kind, value, children⟩ => ([], ⟨kind, value, children⟩) :: placesFrom 0 children

/-- The places at and below children that are numbered from `index` on. -/
def placesFrom (index : Nat) : List Node → List (List Nat × Node)
  | [] => []
  | node :: rest => node.places.map (underChild index) ++ placesFrom (index + 1) rest

end

theorem places_eq (node : Node) : node.places = ([], node) :: placesFrom 0 node.children := by
  obtain ⟨kind, value, children⟩ := node
  rw [places]

mutual

/-- The preorder of a tree goes through its places. -/
theorem preorder_eq (depth : Nat) : (node : Node) →
    preorder depth node = node.places.map fun place => (place.2, depth + place.1.length)
  | ⟨kind, value, children⟩ => by
    rw [preorder, places, List.map_cons, preorderAll_eq depth 0 children]
    rfl

theorem preorderAll_eq (depth index : Nat) : (nodes : List Node) →
    preorderAll (depth + 1) nodes =
      (placesFrom index nodes).map fun place => (place.2, depth + place.1.length)
  | [] => by rw [preorderAll, placesFrom]; rfl
  | node :: rest => by
    rw [preorderAll, placesFrom, preorder_eq (depth + 1) node,
      preorderAll_eq depth (index + 1) rest, List.map_append, List.map_map]
    congr 2
    funext place
    simp only [Function.comp_apply, underChild, List.length_cons, Prod.mk.injEq, true_and]
    omega

end

theorem mem_placesFrom {place : List Nat × Node} :
    place ∈ placesFrom index nodes ↔
      ∃ n child inside, nodes[n]? = some child ∧ inside ∈ child.places ∧
        place = underChild (index + n) inside := by
  induction nodes generalizing index with
  | nil => simp [placesFrom]
  | cons node rest ih =>
    rw [placesFrom, List.mem_append, List.mem_map, ih]
    constructor
    · rintro (⟨inside, hinside, rfl⟩ | ⟨n, child, inside, hchild, hinside, rfl⟩)
      · exact ⟨0, node, inside, rfl, hinside, rfl⟩
      · exact ⟨n + 1, child, inside, hchild, hinside, by rw [Nat.add_assoc, Nat.add_comm 1 n]⟩
    · rintro ⟨n, child, inside, hchild, hinside, rfl⟩
      cases n with
      | zero =>
        cases hchild
        exact .inl ⟨inside, hinside, rfl⟩
      | succ n =>
        exact .inr ⟨n, child, inside, hchild, hinside, by rw [Nat.add_assoc, Nat.add_comm 1 n]⟩

/-- The places of a tree are those that paths lead to. -/
theorem mem_places {found : Node} :
    (path, found) ∈ node.places ↔ node.descendant? path = some found := by
  induction path generalizing node with
  | nil =>
    rw [places_eq, List.mem_cons, mem_placesFrom, descendant?]
    constructor
    · rintro (heq | ⟨n, child, inside, -, -, heq⟩)
      · rw [(Prod.mk.inj heq).2]
      · cases heq
    · intro heq
      exact .inl (by rw [Option.some.inj heq])
  | cons index path ih =>
    rw [places_eq, List.mem_cons, mem_placesFrom, descendant?, Option.bind_eq_some_iff]
    constructor
    · rintro (heq | ⟨n, child, inside, hchild, hinside, heq⟩)
      · cases heq
      · cases heq
        exact ⟨child, by rwa [Nat.zero_add], ih.1 hinside⟩
    · rintro ⟨child, hchild, hfound⟩
      exact .inr ⟨index, child, (path, found), hchild, ih.2 hfound, by rw [Nat.zero_add]; rfl⟩

mutual

theorem ordered_places : (node : Node) → (node.places.map Prod.fst).Pairwise Before
  | ⟨kind, value, children⟩ => by
    rw [places, List.map_cons, List.pairwise_cons]
    refine ⟨?_, ordered_placesFrom 0 children⟩
    intro path hpath
    obtain ⟨place, hplace, rfl⟩ := List.mem_map.1 hpath
    obtain ⟨n, child, inside, -, -, rfl⟩ := mem_placesFrom.1 hplace
    exact .below [] (0 + n) inside.1

theorem ordered_placesFrom (index : Nat) : (nodes : List Node) →
    ((placesFrom index nodes).map Prod.fst).Pairwise Before
  | [] => by rw [placesFrom]; exact .nil
  | node :: rest => by
    rw [placesFrom, List.map_append, List.pairwise_append]
    refine ⟨?_, ordered_placesFrom (index + 1) rest, ?_⟩
    · have hinside := (ordered_places node).map (index :: ·) fun _ _ => Before.cons index
      rwa [List.map_map] at hinside ⊢
    · intro path hpath path' hpath'
      rw [List.map_map] at hpath
      obtain ⟨place, -, rfl⟩ := List.mem_map.1 hpath
      obtain ⟨place', hplace', rfl⟩ := List.mem_map.1 hpath'
      obtain ⟨n, child, inside, -, -, rfl⟩ := mem_placesFrom.1 hplace'
      exact .aside [] (by omega) place.1 inside.1

end

theorem inOrder_places (node : Node) : node.InOrder node.places where
  everywhere _ _ := mem_places
  once := (ordered_places node).imp Before.ne
  ordered := ordered_places node

/-- **A walk goes through the preorder of a tree and ends.** Its turns come to the empty stack,
after as many of them as the tree has nodes. What they visit is the preorder by recursion from depth
zero on: every place of the tree, each once and at the depth of its path, before the places below it
and behind all that is below earlier siblings. -/
theorem walk_in_preorder (node : Node) :
    Walks [(node, 0)] node.walk ∧ node.walk.length = node.count ∧ node.walk = node.preorder 0 ∧
      ∃ places, node.InOrder places ∧
        node.walk = places.map fun place => (place.2, place.1.length) := by
  refine ⟨walks_walkStack _, ?_, walk_eq node, node.places, inOrder_places node, ?_⟩
  · rw [walk, length_walkStack]
    rfl
  · rw [walk_eq, preorder_eq]
    simp only [Nat.zero_add]

end ProtoSchema.Node
