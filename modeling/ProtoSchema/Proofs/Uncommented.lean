import ProtoSchema.Node.Comment
import ProtoSchema.Node.Walk
import ProtoSchema.Proofs.Lowering

/-!
# Comments mean nothing

A tree and the same tree without its comments describe the same thing, and if one of them has a
fault then so has the other. Every part of a schema asks its node for children of kinds that are no
comments, and such children stay what they are when the comments go.

* `Node.find?_withoutComments`, `Node.filter_withoutComments`: children by kind.
* `Node.collect_withoutCommentsAll`: what members describe one after the other.
* `FileMember.ofNode_withoutComments`: any statement of a file, messages at any depth included.
* `comments_describe_nothing`: whole trees, faults included.
-/

namespace ProtoSchema

/-! ### Children -/

namespace Node

variable {α : Type} (node : Node) (nodes : List Node) {kind : Kind}

@[simp] theorem kind_withoutComments : node.withoutComments.kind = node.kind := by
  cases node
  rw [withoutComments]

@[simp] theorem value_withoutComments : node.withoutComments.value = node.value := by
  cases node
  rw [withoutComments]

@[simp] theorem children_withoutComments :
    node.withoutComments.children = withoutCommentsAll node.children := by
  cases node
  rw [withoutComments]

/-- Of the nodes those that are no comments stay, each without its comments. -/
theorem withoutCommentsAll_eq :
    withoutCommentsAll nodes = (nodes.filter (·.kind != .comment)).map withoutComments := by
  induction nodes with
  | nil => rw [withoutCommentsAll]; rfl
  | cons node rest ih =>
    rw [withoutCommentsAll, ih]
    by_cases hkind : node.kind = .comment
    · simp [hkind]
    · simp [hkind]

/-- No comment is left at any depth. -/
theorem kind_of_mem_preorderAll (depth : Nat) : (nodes : List Node) →
    ∀ entry ∈ preorderAll depth (withoutCommentsAll nodes), entry.1.kind ≠ .comment
  | [] => by simp [withoutCommentsAll, preorderAll]
  | ⟨kind, value, children⟩ :: rest => by
    rw [withoutCommentsAll]
    split
    · exact kind_of_mem_preorderAll depth rest
    · rename_i hkind
      rw [withoutComments, preorderAll, preorder, List.forall_mem_append, List.forall_mem_cons]
      exact ⟨⟨hkind, kind_of_mem_preorderAll (depth + 1) children⟩,
        kind_of_mem_preorderAll depth rest⟩

/-- A child of another kind is found without its comments. -/
@[simp] theorem find?_withoutComments (hkind : kind ≠ .comment) :
    node.withoutComments.find? kind = (node.find? kind).map withoutComments := by
  rw [find?, find?, children_withoutComments, withoutCommentsAll_eq, List.find?_map,
    List.find?_filter]
  congr 2
  funext child
  by_cases hchild : child.kind = kind
  · simp [hchild, hkind]
  · simp [hchild]

@[simp] theorem filter_withoutComments (hkind : kind ≠ .comment) :
    node.withoutComments.filter kind = (node.filter kind).map withoutComments := by
  rw [filter, filter, children_withoutComments, withoutCommentsAll_eq, List.filter_map,
    List.filter_filter]
  congr 2
  funext child
  by_cases hchild : child.kind = kind
  · simp [hchild, hkind]
  · simp [hchild]

@[simp] theorem has_withoutComments (hkind : kind ≠ .comment) :
    node.withoutComments.has kind = node.has kind := by
  rw [has, has, find?_withoutComments node hkind, Option.isSome_map]

@[simp] theorem require_withoutComments (hkind : kind ≠ .comment) :
    node.withoutComments.require kind = withoutComments <$> node.require kind := by
  rw [require, require, find?_withoutComments node hkind, kind_withoutComments,
    value_withoutComments]
  cases node.find? kind <;> rfl

@[simp] theorem readValue_withoutComments (value? : Option α) :
    node.withoutComments.readValue value? = node.readValue value? := by
  cases value? <;> simp [readValue]

@[simp] theorem name_withoutComments : node.withoutComments.name = node.name := by
  simp [name]

@[simp] theorem integer_withoutComments : node.withoutComments.integer = node.integer := by
  simp [integer]

@[simp] theorem fieldNumber_withoutComments :
    node.withoutComments.fieldNumber = node.fieldNumber := by
  simp [fieldNumber]

@[simp] theorem enumNumber_withoutComments :
    node.withoutComments.enumNumber = node.enumNumber := by
  simp [enumNumber]

theorem mapM_withoutComments {read : Node → Described α}
    (h : ∀ node, read node.withoutComments = read node) :
    (nodes.map withoutComments).mapM read = nodes.mapM read := by
  induction nodes with
  | nil => rfl
  | cons node rest ih => rw [List.map_cons, List.mapM_cons, List.mapM_cons, h, ih]

/-- **Members describe the same without comments**, if each of them does and if comments describe
nothing. -/
theorem collect_withoutCommentsAll {read : Node → Described (Option α)}
    (h : ∀ node, read node.withoutComments = read node)
    (hcomment : ∀ node : Node, node.kind = .comment → read node = .ok none) :
    collect read (withoutCommentsAll nodes) = collect read nodes := by
  induction nodes with
  | nil => rw [withoutCommentsAll]
  | cons node rest ih =>
    rw [withoutCommentsAll]
    by_cases hkind : node.kind = .comment
    · rw [if_pos hkind, ih, collect, hcomment node hkind, Described.ok_bind]
      cases collect read rest <;> rfl
    · rw [if_neg hkind, collect, collect, h, ih]

end Node

open Node

/-! ### Declarations -/

variable (node : Node)

@[simp] theorem Setting.ofNode_withoutComments : ofNode node.withoutComments = ofNode node := by
  simp [ofNode]

@[simp] theorem Setting.allOf_withoutComments : allOf node.withoutComments = allOf node := by
  rw [allOf, allOf, filter_withoutComments node (by decide),
    mapM_withoutComments _ ofNode_withoutComments]

@[simp] theorem Version.ofNode_withoutComments : ofNode node.withoutComments = ofNode node := by
  simp [ofNode]

@[simp] theorem ImportModifier.ofNode_withoutComments :
    ofNode node.withoutComments = ofNode node := by
  rw [ofNode, ofNode, find?_withoutComments node (by decide)]
  cases node.find? .importModifier <;> simp

@[simp] theorem Import.ofNode_withoutComments : ofNode node.withoutComments = ofNode node := by
  simp [ofNode]

@[simp] theorem RangeEnd.ofNode_withoutComments (start : Int) :
    ofNode node.withoutComments start = ofNode node start := by
  rw [ofNode, ofNode, find?_withoutComments node (by decide)]
  cases node.find? .rangeEnd <;> simp

@[simp] theorem ReservedRange.ofNode_withoutComments :
    ofNode node.withoutComments = ofNode node := by
  simp [ofNode]

@[simp] theorem Reserved.ofNode_withoutComments : ofNode node.withoutComments = ofNode node := by
  have hranges := mapM_withoutComments (node.filter .range) ReservedRange.ofNode_withoutComments
  simp [ofNode, hranges, Function.comp_def]

@[simp] theorem EnumValue.ofNode_withoutComments : ofNode node.withoutComments = ofNode node := by
  simp [ofNode]

@[simp] theorem FieldType.ofNode_withoutComments : ofNode node.withoutComments = ofNode node := by
  rw [ofNode, ofNode, find?_withoutComments node (by decide)]
  cases node.find? .scalarType <;> simp

@[simp] theorem Field.ofNode_withoutComments : ofNode node.withoutComments = ofNode node := by
  simp [ofNode]

@[simp] theorem MapField.ofNode_withoutComments : ofNode node.withoutComments = ofNode node := by
  simp [ofNode]

@[simp] theorem Oneof.ofNode_withoutComments : ofNode node.withoutComments = ofNode node := by
  have hfields := mapM_withoutComments (node.filter .field) Field.ofNode_withoutComments
  simp [ofNode, hfields]

@[simp] theorem Payload.ofNode_withoutComments (kind : Kind) (hkind : kind ≠ .comment) :
    ofNode node.withoutComments kind = ofNode node kind := by
  simp [ofNode, hkind]

@[simp] theorem Method.ofNode_withoutComments : ofNode node.withoutComments = ofNode node := by
  simp [ofNode]

/-! ### Blocks -/

@[simp] theorem EnumMember.ofNode_withoutComments :
    ofNode node.withoutComments = ofNode node := by
  simp [ofNode]

@[simp] theorem Enum.ofNode_withoutComments : ofNode node.withoutComments = ofNode node := by
  have hmembers := collect_withoutCommentsAll node.children EnumMember.ofNode_withoutComments
    fun member hmember => by rw [EnumMember.ofNode, hmember]
  simp [ofNode, hmembers]

@[simp] theorem ServiceMember.ofNode_withoutComments :
    ofNode node.withoutComments = ofNode node := by
  simp [ofNode]

@[simp] theorem Service.ofNode_withoutComments : ofNode node.withoutComments = ofNode node := by
  have hmembers := collect_withoutCommentsAll node.children ServiceMember.ofNode_withoutComments
    fun member hmember => by rw [ServiceMember.ofNode, hmember]
  simp [ofNode, hmembers]

mutual

/-- **A message is what it is without comments**, and so are the messages inside it. -/
theorem Message.ofNode_withoutComments :
    (node : Node) → Message.ofNode node.withoutComments = Message.ofNode node
  | ⟨kind, value, children⟩ => by
    have hname := name_withoutComments ⟨kind, value, children⟩
    rw [withoutComments] at hname ⊢
    rw [Message.ofNode, Message.ofNode, hname, MessageMember.ofNodes_withoutComments children]

theorem MessageMember.ofNodes_withoutComments :
    (nodes : List Node) →
      MessageMember.ofNodes (withoutCommentsAll nodes) = MessageMember.ofNodes nodes
  | [] => by rw [withoutCommentsAll]
  | node :: rest => by
    rw [withoutCommentsAll]
    by_cases hkind : node.kind = .comment
    · rw [if_pos hkind, MessageMember.ofNodes_withoutComments rest, MessageMember.ofNodes, hkind]
      cases MessageMember.ofNodes rest <;> rfl
    · rw [if_neg hkind, MessageMember.ofNodes, MessageMember.ofNodes,
        MessageMember.ofNodes_withoutComments rest,
        Message.ofNode_withoutComments node]
      simp

end

@[simp] theorem FileMember.ofNode_withoutComments :
    ofNode node.withoutComments = ofNode node := by
  simp [ofNode, Message.ofNode_withoutComments]

/-- **The statements of a file describe the same without comments.** -/
theorem FileMember.collect_withoutCommentsAll (nodes : List Node) :
    collect ofNode (withoutCommentsAll nodes) = collect ofNode nodes :=
  Node.collect_withoutCommentsAll nodes ofNode_withoutComments
    fun member hmember => by rw [ofNode, hmember]

/-- A file is what its root describes without comments. -/
theorem File.ofNode_withoutComments (root : Node) :
    ofNode root.withoutComments = ofNode root := by
  simp [ofNode, Node.isRoot, FileMember.collect_withoutCommentsAll]

/-- **Comments describe nothing.** A tree without its comments has none at any depth, and it
describes what the tree with them does: the same file, or the same fault. -/
theorem comments_describe_nothing (root : Node) :
    (∀ entry ∈ preorderAll 1 root.withoutComments.children, entry.1.kind ≠ .comment) ∧
      File.ofNode root.withoutComments = File.ofNode root := by
  refine ⟨?_, File.ofNode_withoutComments root⟩
  rw [children_withoutComments]
  exact kind_of_mem_preorderAll 1 root.children

/-- A fault behind comments at three depths. -/
example : File.ofNode ⟨.root, "", [⟨.comment, "//", []⟩, ⟨.message, "message",
      [⟨.comment, "/*", []⟩, .leaf .identifier "M",
        ⟨.field, "", [⟨.comment, "//", []⟩, .leaf .scalarType "int32"]⟩]⟩]⟩ =
    .error (.missingChild .field "" .identifier) := by decide

end ProtoSchema
