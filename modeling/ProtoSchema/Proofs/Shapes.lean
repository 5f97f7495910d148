import ProtoSchema.Proofs.Meaning
import ProtoSchema.Proofs.Moves

/-!
# What holds of every node of a tree

A node joins the tree when its statement has been read whole, or when its block is opened, and then
only gets more members. So a property of nodes that each production gives, and that one more member
does not take away, holds of every node of every tree.

* `Node.Within`: a node inside a tree; `Node.Every`: a property of all of them.
* `Statement.kind`, `Scope.Holds`: the kinds of the nodes that statements give; `Node.Kind.isLabel`
  and `Node.Kind.isType`: those of the labels and types of fields.
* `Grammar.Gives`: what productions give and members keep.
* `Tree.every_ofTokens`: then every node of a tree has it.
-/

namespace ProtoSchema

/-! ### Nodes inside a tree -/

namespace Node

variable {P : Node → Prop} {through : Kind → Bool} {root node child : Node}

/-- A node inside a tree, reached through children of certain kinds. -/
inductive Within (through : Kind → Bool) (root : Node) : Node → Prop
  | root : Within through root root
  | child {parent node : Node} (h : Within through root parent) (hmem : node ∈ parent.children)
      (hkind : through node.kind = true) : Within through root node

/-- A property of a node and of all nodes inside it. -/
inductive Every (P : Node → Prop) : Node → Prop
  | intro {node : Node} (h : P node) (hchildren : ∀ child ∈ node.children, Every P child) :
      Every P node

theorem Every.here (h : Every P node) : P node := by
  cases h with
  | intro h _ => exact h

theorem Every.children (h : Every P node) : ∀ child ∈ node.children, Every P child := by
  cases h with
  | intro _ hchildren => exact hchildren

theorem Every.of_within (h : Every P root) (hwithin : Within through root node) : Every P node := by
  induction hwithin with
  | root => exact h
  | child _ hmem _ ih => exact ih.children _ hmem

theorem every_leaf {kind : Kind} {value : String} (h : P (.leaf kind value)) :
    Every P (.leaf kind value) :=
  .intro h (by simp [leaf])

/-- A node whose children are all leaves. -/
theorem every_of_leaves (h : P node) (hleaves : ∀ child ∈ node.children,
    P child ∧ child.children = []) : Every P node := by
  refine .intro h fun child hchild => .intro (hleaves child hchild).1 ?_
  rw [(hleaves child hchild).2]
  simp

/-- Nodes among which are the children of each contain all that is inside a tree. -/
theorem Within.mem_of_closed {nodes : List Node} (h : Within through root node)
    (hroot : root ∈ nodes) (hclosed : ∀ parent ∈ nodes, ∀ child ∈ parent.children,
      through child.kind = true → child ∈ nodes) : node ∈ nodes := by
  induction h with
  | root => exact hroot
  | child _ hmem hkind ih => exact hclosed _ ih _ hmem hkind

theorem kind_push : (node.push child).kind = node.kind := rfl

theorem Every.push (h : Every P node) (hpush : P (node.push child)) (hchild : Every P child) :
    Every P (node.push child) := by
  refine .intro hpush ?_
  intro member hmember
  rcases List.mem_append.1 hmember with hold | hnew
  · exact h.children member hold
  · rwa [List.mem_singleton.1 hnew]

end Node

/-! ### Kinds of nodes -/

namespace Node.Kind

/-- Whether a kind is a label of a field. -/
def isLabel : Kind → Bool
  | repeated | optional => true
  | _ => false

/-- Whether a kind is a type of a field. -/
def isType : Kind → Bool
  | scalarType | userType => true
  | _ => false

end Node.Kind

theorem Parse.isType_typeKind (lexeme : String) : (typeKind lexeme).isType = true := by
  unfold typeKind
  split <;> rfl

theorem Parse.isLabel_of_labelKind? {lexeme : String} {kind : Node.Kind}
    (h : labelKind? lexeme = some kind) : kind.isLabel = true := by
  simp only [labelKind?, List.lookup_cons, List.lookup_nil] at h
  split at h
  · cases h
    rfl
  · split at h <;> cases h
    rfl

/-- The kind of the node that a statement gives. -/
def Statement.kind : Statement → Node.Kind
  | version => .version
  | importFile => .importFile
  | package => .package
  | option => .option
  | message => .message
  | oneof => .oneof
  | enum => .enum
  | service => .service
  | method => .method
  | field _ => .field
  | map => .map
  | constant => .enumConstant
  | reserved _ => .reserved
  | comment _ => .comment

/-- A scope may hold a node of a kind. -/
def Scope.Holds (scope : Scope) (kind : Node.Kind) : Prop :=
  ∃ statement ∈ Statement.comment .line :: scope.members, statement.kind = kind

namespace Grammar

open Node

variable {statement : Statement} {words rest tokens : List Token} {node : Node} {frame : Frame}
  {P : Node → Prop}

theorem Assignment.kind_eq {multiline : Bool} (h : Assignment multiline words node) :
    node.kind = .option := by
  cases h
  rfl

theorem Signature.kind_eq (h : Signature words node) : node.kind = .method := by
  cases h
  rfl

theorem Line.kind_eq (h : Line statement words node) : node.kind = statement.kind := by
  cases h with
  | option _ h _ => exact h.kind_eq
  | method h _ => exact h.kind_eq
  | _ => rfl

theorem Opening.kind_eq (h : Opening statement words frame) :
    frame.node.kind = statement.kind ∧ frame.node.kind = blockKind frame.scope := by
  cases h with
  | named hblock _ => cases statement <;> cases hblock <;> exact ⟨rfl, rfl⟩
  | method h _ => exact ⟨h.kind_eq, h.kind_eq⟩

/-- A property of the nodes of all options is one of the options of a list. -/
theorem OptionList.every {nodes : List Node} (h : OptionList words nodes)
    (hsetting : ∀ setting : Setting, Every P setting.toNode) : ∀ node ∈ nodes, Every P node := by
  obtain ⟨settings, rfl, -⟩ := h.exists_settings
  intro node hnode
  obtain ⟨setting, -, rfl⟩ := List.mem_map.1 hnode
  exact hsetting setting

/-- The productions over some tokens give nodes with a property, and one more member keeps it. -/
structure Gives (tokens : List Token) (P : Node → Prop) : Prop where
  root : P .emptyRoot
  line : ∀ {statement words node}, words ⊆ tokens → Line statement words node → Every P node
  comment : ∀ {words node}, LineComment words node → Every P node
  opening : ∀ {statement words frame}, words ⊆ tokens → Opening statement words frame →
    Every P frame.node
  push : ∀ {scope parent child}, parent.kind = blockKind scope → scope.Holds child.kind →
    P parent → P (parent.push child)

end Grammar

/-! ### Places -/

namespace Place

open Grammar Node

variable {P : Node → Prop} {place next : Place} {tokens : List Token} {node : Node}

/-- The node of every open block has a property, and may stand in the block below. -/
def Nested (P : Node → Prop) : List Frame → Prop
  | [] => True
  | top :: below =>
    Every P top.node ∧ top.node.kind = blockKind top.scope ∧
      (scope ⟨below, {}, .ofTokens []⟩).Holds top.node.kind ∧ Nested P below

/-- All nodes so far have a property. -/
structure Shaped (tokens : List Token) (P : Node → Prop) (place : Place) : Prop where
  tokens_eq : place.tape.tokens = tokens
  root : Every P place.tree.root
  kind : place.tree.root.kind = .root
  nested : Nested P place.blocks

/-- A member that the scope of a place may hold is added there. -/
theorem Shaped.add (hgives : Gives tokens P) (h : place.Shaped tokens P) (hnode : Every P node)
    (hholds : place.scope.Holds node.kind) {after : Tape} (htokens : after.tokens = tokens) :
    (place.add node after).Shaped tokens P := by
  obtain ⟨blocks, tree, tape⟩ := place
  cases blocks with
  | nil =>
    have hkind : tree.root.kind = blockKind .file := h.kind
    refine ⟨htokens, ?_, h.kind, trivial⟩
    exact h.root.push (hgives.push hkind hholds h.root.here) hnode
  | cons top below =>
    obtain ⟨htop, hkind, hbelow, hothers⟩ := h.nested
    refine ⟨htokens, h.root, h.kind, ?_, hkind, hbelow, hothers⟩
    exact htop.push (hgives.push hkind hholds htop.here) hnode

/-- The words that a statement passes are tokens of the file. -/
theorem Shaped.subset_tokens (h : place.Shaped tokens P) {words rest : List Token}
    (hrest : place.tape.skipBreaks.rest = words ++ rest) : words ⊆ tokens := by
  intro token htoken
  have hmem : token ∈ place.tape.skipBreaks.rest := hrest ▸ List.mem_append_left _ htoken
  rw [← h.tokens_eq]
  exact List.mem_append_right _
    (Tape.mem_rest_of_reaches place.tape.reaches_skipBreaks hmem)

/-- **Every move keeps a property that productions give.** -/
theorem Shaped.of_move (hgives : Gives tokens P) (h : place.Shaped tokens P)
    (hreach : place.tape.Reaches next.tape) (hmove : place.Move next) : next.Shaped tokens P := by
  have htokens := hreach.tokens_eq.trans h.tokens_eq
  cases hmove with
  | @whole token statement node after hpeek hstatement hstart =>
    obtain ⟨words, hrest, hread⟩ := Frame.exists_read hpeek hstatement hstart
    have hmember := Scope.mem_members_of_statement? hstatement
    rw [tape_add] at htokens
    rcases hread with hline | ⟨rfl, hline, -⟩
    · refine h.add hgives (hgives.line (h.subset_tokens hrest) hline) ⟨statement, ?_, ?_⟩ htokens
      · exact List.mem_cons.2 hmember
      · exact hline.kind_eq.symm
    · refine h.add hgives (hgives.comment hline) ⟨_, List.mem_cons_self, ?_⟩ htokens
      exact hline.kind_eq.symm
  | @opened token statement frame after hpeek hstatement hstart =>
    obtain ⟨words, hrest, hread⟩ := Frame.exists_read hpeek hstatement hstart
    have hmember := Scope.mem_members_of_statement? hstatement
    obtain ⟨hkind, hblock⟩ := Opening.kind_eq hread
    refine ⟨htokens, h.root, h.kind, ?_, hblock, ?_, h.nested⟩
    · exact hgives.opening (h.subset_tokens hrest) hread
    · exact ⟨statement, List.mem_cons.2 hmember, hkind.symm⟩
  | @closed token top below hpeek hbrace hblocks =>
    have hnested := h.nested
    rw [hblocks] at hnested
    obtain ⟨htop, -, hholds, hbelow⟩ := hnested
    rw [tape_add] at htokens
    have hplace : Shaped tokens P ⟨below, place.tree, place.tape⟩ :=
      ⟨h.tokens_eq, h.root, h.kind, hbelow⟩
    exact hplace.add hgives htop hholds htokens
  | refused => exact ⟨htokens, h.root, h.kind, h.nested⟩
  | abandoned => exact ⟨htokens, h.root, h.kind, trivial⟩

end Place

/-- **Every node of a tree has what productions give** and members keep. -/
theorem Tree.every_ofTokens {tokens : List Token} {P : Node → Prop}
    (hgives : Grammar.Gives tokens P) : Node.Every P (ofTokens tokens).root := by
  have hstart : (Place.start tokens).Shaped tokens P :=
    ⟨rfl, Node.every_leaf hgives.root, rfl, trivial⟩
  obtain ⟨last, hshaped, htree⟩ := exists_last_of_moves hstart
    fun h hreach hmove => h.of_move hgives hreach hmove
  rw [← htree]
  exact hshaped.root

end ProtoSchema
