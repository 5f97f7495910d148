import ProtoSchema.Proofs.Shapes

/-!
# Foreign children

A tree may be built by hand, and then a node may have children that no statement gives it. Where the
members of a file, a message, an enum or a service are read, each child is looked at, and a foreign
one is reported. The parts of all other nodes are looked up by kind, and a foreign child there is
passed over in silence. So a tree that describes a file is free of foreign children, comments apart,
as long as the nodes of the second sort are.

* `Node.Kind.parts`: the kinds of children that statements give a node of a kind.
* `Node.Conforms`: a node without foreign children; `Grammar.gives_conforms` finds the nodes of
  every text conforming.
* `Node.Accepted.of_mem`: what reading a node says about one of its children.
* `foreign_child_refused`: trees that describe a file.
-/

namespace ProtoSchema

/-! ### Which children a node may have -/

namespace Node.Kind

/-- The kinds of children that statements give a node of a kind. -/
def parts : Kind → List Kind
  | root => [version, package, importFile, option, message, enum, service, comment]
  | message => [identifier, field, map, oneof, message, enum, option, reserved, comment]
  | oneof => [identifier, field, option, comment]
  | enum => [identifier, enumConstant, option, reserved, comment]
  | service => [identifier, method, option, comment]
  | method => [identifier, methodInput, methodOutput, option, comment]
  | field => [repeated, optional, scalarType, userType, identifier, fieldNumber, option]
  | map => [mapKey, mapValue, identifier, fieldNumber, option]
  | enumConstant => [identifier, fieldNumber, option]
  | option => [identifier, optionValue]
  | version => [stringLiteral]
  | package => [identifier]
  | importFile => [importModifier, stringLiteral]
  | reserved => [stringLiteral, range]
  | range => [rangeEnd]
  | methodInput | methodOutput => [stream]
  | comment => [commentText]
  | _ => []

/-- Whether reading looks at every child of a node of a kind. -/
def isChecked : Kind → Bool
  | root | message | enum | service => true
  | _ => false

/-- A node that is looked at child by child stands in one that is. -/
theorem isChecked_of_mem_parts {parent child : Kind} (h : child ∈ parent.parts)
    (hchild : child.isChecked = true) : parent.isChecked = true := by
  revert h hchild
  cases parent <;> cases child <;> decide

end Node.Kind

/-- **A node without foreign children.** A field has one type and at most one label, and a reserved
statement has names only or ranges only. -/
@[mk_iff]
structure Node.Conforms (node : Node) : Prop where
  parts : ∀ child ∈ node.children, child.kind ∈ node.kind.parts
  type : node.kind = .field → node.children.countP (·.kind.isType) = 1
  label : node.kind = .field → node.children.countP (·.kind.isLabel) ≤ 1
  entries : node.kind = .reserved →
    (∀ child ∈ node.children, child.kind = .stringLiteral) ∨
      ∀ child ∈ node.children, child.kind = .range

instance (node : Node) : Decidable node.Conforms :=
  decidable_of_iff _ (Node.conforms_iff node).symm

/-! ### Trees of texts -/

namespace Grammar

open Node

variable {words tokens : List Token} {nodes : List Node} {node : Node}

/-- Nodes of other kinds than fields and reserved statements. -/
theorem conforms_of_parts (h : ∀ child ∈ node.children, child.kind ∈ node.kind.parts)
    (hkind : node.kind ∉ [.field, .reserved]) : node.Conforms where
  parts := h
  type hfield := by simp [hfield] at hkind
  label hfield := by simp [hfield] at hkind
  entries hreserved := by simp [hreserved] at hkind

theorem conforms_leaf {kind : Node.Kind} {value : String} (h : kind ∉ [.field, .reserved]) :
    (leaf kind value).Conforms :=
  conforms_of_parts (by simp [leaf]) h

/-- Nodes of such kinds with leaves of the right kinds. -/
theorem every_conforms_of_leaves (hkind : node.kind ∉ [.field, .reserved])
    (h : ∀ child ∈ node.children, child.kind ∈ node.kind.parts ∧
      child.kind ∉ [.field, .reserved] ∧ child.children = []) : Every Conforms node := by
  refine every_of_leaves (conforms_of_parts (fun child hchild => (h child hchild).1) hkind) ?_
  intro child hchild
  obtain ⟨-, hother, hleaf⟩ := h child hchild
  exact ⟨conforms_of_parts (by simp [hleaf]) hother, hleaf⟩

theorem every_conforms_setting (setting : Setting) : Every Conforms setting.toNode :=
  every_conforms_of_leaves (by simp [Setting.toNode])
    (by simp [Setting.toNode, leaf, Node.Kind.parts])

theorem OptionList.kind_eq (h : OptionList words nodes) : ∀ node ∈ nodes, node.kind = .option := by
  obtain ⟨settings, rfl, -⟩ := h.exists_settings
  simp [Setting.toNode]

/-- What follows the type of a field: its name, its number and its options. -/
theorem FieldTail.every_conforms (h : FieldTail words nodes) :
    ∀ node ∈ nodes, Every Conforms node ∧ node.kind ∈ [.identifier, .fieldNumber, .option] := by
  cases h with
  | intro _ hoptions _ =>
    refine List.forall_mem_cons.2 ⟨⟨every_leaf (conforms_leaf (by simp)), by simp [leaf]⟩, ?_⟩
    refine List.forall_mem_cons.2 ⟨⟨every_leaf (conforms_leaf (by simp)), by simp [leaf]⟩, ?_⟩
    intro node hnode
    exact ⟨hoptions.every every_conforms_setting node hnode, by simp [hoptions.kind_eq node hnode]⟩

/-- The labels of a field, one at most, and its type, as leaves. -/
structure FieldHead (labels : List Node) (type : Node) : Prop where
  length : labels.length ≤ 1
  label : ∀ label ∈ labels, label.kind.isLabel = true ∧ label.children = []
  isType : type.kind.isType = true
  leaf : type.children = []

theorem part_of_field {kind : Node.Kind} (h : kind.isType = true ∨ kind.isLabel = true) :
    kind ∉ [.field, .reserved] ∧ kind ∈ Node.Kind.parts .field := by
  cases kind <;> revert h <;> decide

theorem isLabel_of_isType {kind : Node.Kind} (h : kind.isType = true) : kind.isLabel = false := by
  cases kind <;> revert h <;> decide

/-- What follows the type of a field is neither a type nor a label. -/
theorem FieldTail.countP_eq (h : FieldTail words nodes) :
    nodes.countP (·.kind.isType) = 0 ∧ nodes.countP (·.kind.isLabel) = 0 := by
  have hkinds : ∀ kind : Node.Kind, kind ∈ [.identifier, .fieldNumber, .option] →
      kind.isType = false ∧ kind.isLabel = false := by
    decide
  refine ⟨List.countP_eq_zero.2 fun node hnode => ?_, List.countP_eq_zero.2 fun node hnode => ?_⟩
  · simp [(hkinds _ (h.every_conforms node hnode).2).1]
  · simp [(hkinds _ (h.every_conforms node hnode).2).2]

theorem FieldTail.conforms_field {labels : List Node} {type : Node} {value : String}
    (h : FieldTail words nodes) (hhead : FieldHead labels type) :
    Node.Conforms ⟨.field, value, labels ++ type :: nodes⟩ := by
  obtain ⟨htypes, hlabels⟩ := h.countP_eq
  refine ⟨?_, fun _ => ?_, fun _ => ?_, nofun⟩
  · intro child hchild
    rcases List.mem_append.1 hchild with hmem | hmem
    · exact (part_of_field (.inr (hhead.label child hmem).1)).2
    · rcases List.mem_cons.1 hmem with rfl | hmem
      · exact (part_of_field (.inl hhead.isType)).2
      · have hparts : ∀ kind : Node.Kind, kind ∈ [.identifier, .fieldNumber, .option] →
            kind ∈ Node.Kind.parts .field := by
          decide
        exact hparts _ (h.every_conforms child hmem).2
  · have hfront : labels.countP (·.kind.isType) = 0 := by
      refine List.countP_eq_zero.2 fun label hmem htype => ?_
      exact absurd (hhead.label label hmem).1 (by simp [isLabel_of_isType htype])
    simp [List.countP_append, hfront, htypes, hhead.isType]
  · have hfront : labels.countP (·.kind.isLabel) ≤ labels.length := List.countP_le_length
    have hlength := hhead.length
    simp only [List.countP_append, List.countP_cons, hlabels, isLabel_of_isType hhead.isType,
      Bool.false_eq_true, if_false]
    omega

/-- A field with its labels in front: one type, and no more labels behind it. -/
theorem FieldTail.every_conforms_field {labels : List Node} {type : Node} {value : String}
    (h : FieldTail words nodes) (hhead : FieldHead labels type) :
    Every Conforms ⟨.field, value, labels ++ type :: nodes⟩ := by
  refine .intro (h.conforms_field hhead) ?_
  intro child hchild
  rcases List.mem_append.1 hchild with hmem | hmem
  · obtain ⟨hkind, hleaf⟩ := hhead.label child hmem
    exact every_conforms_of_leaves (part_of_field (.inr hkind)).1 (by simp [hleaf])
  · rcases List.mem_cons.1 hmem with rfl | hmem
    · exact every_conforms_of_leaves (part_of_field (.inl hhead.isType)).1 (by simp [hhead.leaf])
    · exact (h.every_conforms child hmem).1

theorem ReservedRange.every_conforms {domain : NumberDomain} (h : ReservedRange domain words node) :
    Every Conforms node ∧ node.kind = .range := by
  cases h with
  | single => exact ⟨every_conforms_of_leaves (by simp) (by simp), rfl⟩
  | between | toMax =>
    exact ⟨every_conforms_of_leaves (by simp) (by simp [leaf, Node.Kind.parts]), rfl⟩

theorem ReservedName.every_conforms (h : ReservedName words node) :
    Every Conforms node ∧ node.kind = .stringLiteral := by
  cases h with
  | intro => exact ⟨every_leaf (conforms_leaf (by simp)), rfl⟩

/-- A reserved statement whose entries are of one kind. -/
theorem every_conforms_reserved {value : String} {kind : Node.Kind}
    (hkind : kind = .stringLiteral ∨ kind = .range)
    (h : ∀ node ∈ nodes, Every Conforms node ∧ node.kind = kind) :
    Every Conforms ⟨.reserved, value, nodes⟩ := by
  refine .intro ⟨?_, nofun, nofun, fun _ => ?_⟩ fun node hnode => (h node hnode).1
  · intro node hnode
    rw [(h node hnode).2]
    rcases hkind with rfl | rfl <;> simp [Node.Kind.parts]
  · rcases hkind with rfl | rfl
    · exact .inl fun node hnode => (h node hnode).2
    · exact .inr fun node hnode => (h node hnode).2

theorem Payload.every_conforms {kind : Node.Kind} (hkind : kind ∈ [.methodInput, .methodOutput])
    (h : Payload kind words node) : Every Conforms node ∧ node.kind = kind := by
  have hparts : kind.parts = [.stream] ∧ kind ∉ [.field, .reserved] := by
    revert hkind
    cases kind <;> decide
  cases h with
  | single => exact ⟨every_conforms_of_leaves hparts.2 (by simp), rfl⟩
  | stream =>
    exact ⟨every_conforms_of_leaves hparts.2 (by simp [hparts.1, leaf]), rfl⟩

theorem Signature.every_conforms (h : Signature words node) : Every Conforms node := by
  cases h with
  | intro _ hinput _ houtput =>
    obtain ⟨hrequest, hinputKind⟩ := hinput.every_conforms (by simp)
    obtain ⟨hresponse, houtputKind⟩ := houtput.every_conforms (by simp)
    refine .intro (conforms_of_parts ?_ (by simp)) ?_
    · simp [leaf, hinputKind, houtputKind, Node.Kind.parts]
    · refine List.forall_mem_cons.2 ⟨every_leaf (conforms_leaf (by simp)), ?_⟩
      exact List.forall_mem_cons.2 ⟨hrequest, List.forall_mem_cons.2 ⟨hresponse, by simp⟩⟩

theorem every_conforms_comment (mark : OpenComment) (text : String) :
    Every Conforms (Parse.commentNode mark text) :=
  every_conforms_of_leaves (by simp [Parse.commentNode])
    (by simp [Parse.commentNode, leaf, Node.Kind.parts])

theorem Line.every_conforms {statement : Statement} (h : Line statement words node) :
    Every Conforms node := by
  cases h with
  | version | plainImport | qualifiedImport | package =>
    exact every_conforms_of_leaves (by simp) (by simp [leaf, Node.Kind.parts])
  | shortComment | blockComment => exact every_conforms_comment _ _
  | option _ h _ =>
    obtain ⟨setting, rfl, -⟩ := h.exists_setting
    exact every_conforms_setting setting
  | @field _ type _ _ _ _ htail =>
    have hhead : FieldHead [] (.leaf (Parse.typeKind type.lexeme) type.lexeme) :=
      ⟨by simp, by simp, Parse.isType_typeKind _, rfl⟩
    exact htail.every_conforms_field hhead
  | @labelledField label type kind _ _ hlabel _ htail =>
    have hkind := Parse.isLabel_of_labelKind? hlabel
    have hhead : FieldHead [.leaf kind label.lexeme]
        (.leaf (Parse.typeKind type.lexeme) type.lexeme) :=
      ⟨by simp, by simpa [leaf] using hkind, Parse.isType_typeKind _, rfl⟩
    exact htail.every_conforms_field hhead
  | map _ htail =>
    refine .intro (conforms_of_parts ?_ (by simp)) ?_
    · refine List.forall_mem_cons.2 ⟨by simp [leaf, Node.Kind.parts], ?_⟩
      refine List.forall_mem_cons.2 ⟨by simp [leaf, Node.Kind.parts], ?_⟩
      intro child hchild
      exact List.mem_append_right [.mapKey, .mapValue] (htail.every_conforms child hchild).2
    · refine List.forall_mem_cons.2 ⟨every_leaf (conforms_leaf (by simp)), ?_⟩
      refine List.forall_mem_cons.2 ⟨every_leaf (conforms_leaf (by simp)), ?_⟩
      exact fun child hchild => (htail.every_conforms child hchild).1
  | constant _ _ _ hoptions _ =>
    refine .intro (conforms_of_parts ?_ (by simp)) ?_
    · refine List.forall_mem_cons.2 ⟨by simp [leaf, Node.Kind.parts], ?_⟩
      refine List.forall_mem_cons.2 ⟨by simp [leaf, Node.Kind.parts], ?_⟩
      intro child hchild
      simp [hoptions.kind_eq child hchild, Node.Kind.parts]
    · refine List.forall_mem_cons.2 ⟨every_leaf (conforms_leaf (by simp)), ?_⟩
      refine List.forall_mem_cons.2 ⟨every_leaf (conforms_leaf (by simp)), ?_⟩
      exact hoptions.every every_conforms_setting
  | reservedNames _ h =>
    exact every_conforms_reserved (.inl rfl) (h.forall ReservedName.every_conforms).2
  | reservedRanges _ _ h =>
    exact every_conforms_reserved (.inr rfl) (h.forall ReservedRange.every_conforms).2
  | method h _ => exact h.every_conforms

theorem Opening.every_conforms {statement : Statement} {frame : Frame}
    (h : Opening statement words frame) : Every Conforms frame.node := by
  cases h with
  | @named _ _ kind _ _ _ _ hblock _ =>
    have hkind : kind ∉ [.field, .reserved] ∧ .identifier ∈ kind.parts := by
      cases statement <;> cases hblock <;> decide
    exact every_conforms_of_leaves hkind.1 (by simpa [leaf] using hkind.2)
  | method h _ => exact h.every_conforms

/-- What a scope may hold is a part of its block. -/
theorem mem_parts_of_holds {scope : Scope} {kind : Node.Kind} (h : scope.Holds kind) :
    kind ∈ (blockKind scope).parts := by
  obtain ⟨statement, hmem, rfl⟩ := h
  have hall : ∀ statement ∈ Statement.comment .line :: scope.members,
      statement.kind ∈ (blockKind scope).parts := by
    cases scope <;> decide
  exact hall statement hmem

/-- **The nodes of every text conform.** -/
theorem gives_conforms (tokens : List Token) : Gives tokens Conforms where
  root := by decide
  line _ h := h.every_conforms
  comment h := by
    cases h
    exact every_conforms_comment _ _
  opening _ h := h.every_conforms
  push {scope parent child} hkind hholds h := by
    refine conforms_of_parts ?_ ?_
    · intro member hmember
      rcases List.mem_append.1 hmember with hold | hnew
      · exact h.parts member hold
      · rw [List.mem_singleton.1 hnew]
        exact hkind ▸ mem_parts_of_holds hholds
    · rw [kind_push, hkind]
      cases scope <;> decide

end Grammar

/-! ### Trees that describe a file -/

theorem Described.bind_eq_ok {α β : Type} {first : Described α} {next : α → Described β}
    {value : β} :
    (first >>= next) = .ok value ↔ ∃ middle, first = .ok middle ∧ next middle = .ok value := by
  cases first with
  | error fault => exact ⟨nofun, by rintro ⟨_, ⟨⟩, _⟩⟩
  | ok middle => simp

namespace Node

variable {α : Type} {node child root : Node} {nodes : List Node}

/-- Where members are collected, each of them is read. -/
theorem exists_of_collect {read : Node → Described (Option α)} {values : List α}
    (h : collect read nodes = .ok values) : ∀ node ∈ nodes, ∃ found, read node = .ok found := by
  induction nodes generalizing values with
  | nil => simp
  | cons first rest ih =>
    rw [collect] at h
    obtain ⟨found, hfirst, hthen⟩ := Described.bind_eq_ok.1 h
    obtain ⟨others, hrest, -⟩ := Described.bind_eq_ok.1 hthen
    exact List.forall_mem_cons.2 ⟨⟨found, hfirst⟩, ih hrest⟩

/-- A node that is looked at child by child describes what its kind stands for. -/
def Accepted (node : Node) : Prop :=
  match node.kind with
  | .root => ∃ file, File.ofNode node = .ok file
  | .message => ∃ message, Message.ofNode node = .ok message
  | .enum => ∃ enum, Enum.ofNode node = .ok enum
  | .service => ∃ service, Service.ofNode node = .ok service
  | _ => True

/-- A statement of a file is of the right kind, and is read. -/
theorem accepted_of_fileMember {found : Option FileMember}
    (h : FileMember.ofNode child = .ok found) :
    child.kind ∈ Kind.parts .root ∧ child.Accepted := by
  unfold FileMember.ofNode at h
  unfold Accepted
  cases hkind : child.kind with
  | message | enum | service =>
    rw [hkind] at h
    obtain ⟨value, hvalue, -⟩ := Described.bind_eq_ok.1 h
    exact ⟨by decide, value, hvalue⟩
  | comment | version | package | importFile | option => exact ⟨by decide, trivial⟩
  | _ =>
    rw [hkind] at h
    cases h

theorem accepted_of_messageMember {found : Option MessageMember}
    (h : MessageMember.ofNode child = .ok found) :
    child.kind ∈ Kind.parts .message ∧ child.Accepted := by
  unfold MessageMember.ofNode at h
  unfold Accepted
  cases hkind : child.kind with
  | message | enum =>
    rw [hkind] at h
    obtain ⟨value, hvalue, -⟩ := Described.bind_eq_ok.1 h
    exact ⟨by decide, value, hvalue⟩
  | identifier | comment | field | map | oneof | option | reserved => exact ⟨by decide, trivial⟩
  | _ =>
    rw [hkind] at h
    cases h

theorem accepted_of_enumMember {found : Option EnumMember}
    (h : EnumMember.ofNode child = .ok found) :
    child.kind ∈ Kind.parts .enum ∧ child.Accepted := by
  unfold EnumMember.ofNode at h
  unfold Accepted
  cases hkind : child.kind with
  | identifier | comment | enumConstant | option | reserved => exact ⟨by decide, trivial⟩
  | _ =>
    rw [hkind] at h
    cases h

theorem accepted_of_serviceMember {found : Option ServiceMember}
    (h : ServiceMember.ofNode child = .ok found) :
    child.kind ∈ Kind.parts .service ∧ child.Accepted := by
  unfold ServiceMember.ofNode at h
  unfold Accepted
  cases hkind : child.kind with
  | identifier | comment | method | option => exact ⟨by decide, trivial⟩
  | _ =>
    rw [hkind] at h
    cases h

/-- The members of a message that is read are collected. -/
theorem exists_members (h : ∃ message, Message.ofNode node = .ok message) :
    ∃ members, collect MessageMember.ofNode node.children = .ok members := by
  obtain ⟨message, hmessage⟩ := h
  obtain ⟨kind, value, children⟩ := node
  rw [Message.ofNode, MessageMember.ofNodes_eq] at hmessage
  obtain ⟨name, -, hrest⟩ := Described.bind_eq_ok.1 hmessage
  obtain ⟨members, hmembers, -⟩ := Described.bind_eq_ok.1 hrest
  exact ⟨members, hmembers⟩

/-- **Where reading looks at every child**, each is of a kind that may stand there, and is read. -/
theorem Accepted.of_mem (h : node.Accepted) (hchecked : node.kind.isChecked = true)
    (hmem : child ∈ node.children) : child.kind ∈ node.kind.parts ∧ child.Accepted := by
  unfold Accepted at h
  cases hkind : node.kind with
  | root =>
    rw [hkind] at h
    obtain ⟨file, hfile⟩ := h
    rw [File.ofNode, if_pos (by simp [isRoot, hkind])] at hfile
    obtain ⟨members, hmembers, -⟩ := Described.bind_eq_ok.1 hfile
    obtain ⟨found, hfound⟩ := exists_of_collect hmembers child hmem
    exact accepted_of_fileMember hfound
  | message =>
    rw [hkind] at h
    obtain ⟨members, hmembers⟩ := exists_members h
    obtain ⟨found, hfound⟩ := exists_of_collect hmembers child hmem
    exact accepted_of_messageMember hfound
  | enum =>
    rw [hkind] at h
    obtain ⟨enum, henum⟩ := h
    obtain ⟨name, -, hrest⟩ := Described.bind_eq_ok.1 henum
    obtain ⟨members, hmembers, -⟩ := Described.bind_eq_ok.1 hrest
    obtain ⟨found, hfound⟩ := exists_of_collect hmembers child hmem
    exact accepted_of_enumMember hfound
  | service =>
    rw [hkind] at h
    obtain ⟨service, hservice⟩ := h
    obtain ⟨name, -, hrest⟩ := Described.bind_eq_ok.1 hservice
    obtain ⟨members, hmembers, -⟩ := Described.bind_eq_ok.1 hrest
    obtain ⟨found, hfound⟩ := exists_of_collect hmembers child hmem
    exact accepted_of_serviceMember hfound
  | _ =>
    rw [hkind] at hchecked
    cases hchecked

theorem Accepted.conforms (h : node.Accepted) (hchecked : node.kind.isChecked = true) :
    node.Conforms := by
  refine Grammar.conforms_of_parts (fun child hchild => (h.of_mem hchecked hchild).1) ?_
  revert hchecked
  cases node.kind <;> decide

/-- Reading comes to every node that is reached through nodes that are looked at. -/
theorem Accepted.conforms_of_checked (h : root.Accepted) (hchecked : root.kind.isChecked = true)
    (hwithin : root.Within Kind.isChecked node) : node.Conforms := by
  have haccepted : node.Accepted ∧ node.kind.isChecked = true := by
    induction hwithin with
    | root => exact ⟨h, hchecked⟩
    | child _ hmem hkind ih => exact ⟨(ih.1.of_mem ih.2 hmem).2, hkind⟩
  exact haccepted.1.conforms haccepted.2

/-- If all other nodes conform, reading comes to every node that is looked at. -/
theorem Accepted.conforms_of_others (h : root.Accepted)
    (hothers : ∀ node, root.Within (· != .comment) node → node.kind.isChecked = false →
      node.Conforms)
    (hwithin : root.Within (· != .comment) node) : node.Conforms := by
  have haccepted : node.kind.isChecked = true → node.Accepted := by
    induction hwithin with
    | root => exact fun _ => h
    | @child parent node hparent hmem hkind ih =>
      intro hchecked
      cases hlooked : parent.kind.isChecked with
      | true => exact ((ih hlooked).of_mem hlooked hmem).2
      | false =>
        -- no other node may have a child that is looked at
        have hparts := (hothers parent hparent hlooked).parts node hmem
        rw [Kind.isChecked_of_mem_parts hparts hchecked] at hlooked
        cases hlooked
  cases hlooked : node.kind.isChecked with
  | true => exact (haccepted hlooked).conforms hlooked
  | false => exact hothers node hwithin hlooked

/-- A root that describes a file. -/
theorem accepted_root {file : File} (h : File.ofNode root = .ok file) :
    root.Accepted ∧ root.kind.isChecked = true := by
  have hroot : root.kind = .root := by
    unfold File.ofNode at h
    split at h
    · rename_i hroot
      simpa [isRoot] using hroot
    · cases h
  unfold Accepted
  rw [hroot]
  exact ⟨⟨file, h⟩, rfl⟩

end Node

/-! ### Parts that are looked up -/

namespace Node

variable {node child : Node} {kind : Kind}

/-- A child of another kind is not found. -/
theorem find?_push (h : child.kind ≠ kind) : (node.push child).find? kind = node.find? kind := by
  simp [find?, push, append, h]

theorem filter_push (h : child.kind ≠ kind) :
    (node.push child).filter kind = node.filter kind := by
  simp [filter, push, append, h]

/-- A child is foreign to nodes of a kind. -/
def Foreign (parent : Kind) (child : Node) : Prop := ∀ kind ∈ parent.parts, child.kind ≠ kind

theorem require_push (h : child.kind ≠ kind) :
    (node.push child).require kind = node.require kind := by
  rw [require, require, find?_push h]
  rfl

theorem has_push (h : child.kind ≠ kind) : (node.push child).has kind = node.has kind := by
  rw [has, has, find?_push h]

theorem name_push (h : child.kind ≠ .identifier) : (node.push child).name = node.name := by
  rw [name, name, require_push h]

end Node

section Foreign

open Node

variable {node child : Node}

theorem Setting.ofNode_push (h : Foreign .option child) :
    ofNode (node.push child) = ofNode node := by
  rw [ofNode, ofNode, name_push (h _ (by decide)), require_push (h _ (by decide))]

theorem Setting.allOf_push (h : child.kind ≠ .option) : allOf (node.push child) = allOf node := by
  rw [allOf, allOf, filter_push h]

theorem Version.ofNode_push (h : Foreign .version child) :
    ofNode (node.push child) = ofNode node := by
  rw [ofNode, ofNode, require_push (h _ (by decide))]

theorem Import.ofNode_push (h : Foreign .importFile child) :
    ofNode (node.push child) = ofNode node := by
  rw [ofNode, ofNode, ImportModifier.ofNode, ImportModifier.ofNode, find?_push (h _ (by decide)),
    require_push (h _ (by decide))]

theorem Field.ofNode_push (h : Foreign .field child) :
    ofNode (node.push child) = ofNode node := by
  rw [ofNode, ofNode, FieldType.ofNode, FieldType.ofNode, find?_push (h _ (by decide)),
    require_push (h .userType (by decide)), name_push (h _ (by decide)),
    require_push (h .fieldNumber (by decide)), Setting.allOf_push (h _ (by decide)),
    has_push (h .repeated (by decide)), has_push (h .optional (by decide))]

theorem MapField.ofNode_push (h : Foreign .map child) :
    ofNode (node.push child) = ofNode node := by
  rw [ofNode, ofNode, require_push (h .mapKey (by decide)), require_push (h .mapValue (by decide)),
    name_push (h _ (by decide)), require_push (h .fieldNumber (by decide)),
    Setting.allOf_push (h _ (by decide))]

theorem Oneof.ofNode_push (h : Foreign .oneof child) :
    ofNode (node.push child) = ofNode node := by
  rw [ofNode, ofNode, name_push (h _ (by decide)), filter_push (h _ (by decide)),
    Setting.allOf_push (h _ (by decide))]

theorem Reserved.ofNode_push (h : Foreign .reserved child) :
    ofNode (node.push child) = ofNode node := by
  rw [ofNode, ofNode, has_push (h _ (by decide)), filter_push (h .stringLiteral (by decide)),
    filter_push (h .range (by decide))]

theorem EnumValue.ofNode_push (h : Foreign .enumConstant child) :
    ofNode (node.push child) = ofNode node := by
  rw [ofNode, ofNode, name_push (h _ (by decide)), require_push (h _ (by decide)),
    Setting.allOf_push (h _ (by decide))]

theorem Method.ofNode_push (h : Foreign .method child) :
    ofNode (node.push child) = ofNode node := by
  rw [ofNode, ofNode, name_push (h _ (by decide)), Payload.ofNode, Payload.ofNode, Payload.ofNode,
    Payload.ofNode, require_push (h .methodInput (by decide)),
    require_push (h .methodOutput (by decide)), Setting.allOf_push (h _ (by decide))]

theorem FileMember.ofNode_push (hkind : node.kind.isChecked = false)
    (h : Foreign node.kind child) : ofNode (node.push child) = ofNode node := by
  rw [ofNode, ofNode, kind_push]
  cases hnode : node.kind <;> rw [hnode] at h hkind
  case version => simp only [Version.ofNode_push h]
  case package => simp only [name_push (h _ (by decide))]
  case importFile => simp only [Import.ofNode_push h]
  case option => simp only [Setting.ofNode_push h]
  case message | enum | service => cases hkind

theorem MessageMember.ofNode_push (hkind : node.kind.isChecked = false)
    (h : Foreign node.kind child) : ofNode (node.push child) = ofNode node := by
  rw [ofNode, ofNode, kind_push]
  cases hnode : node.kind <;> rw [hnode] at h hkind
  case field => simp only [Field.ofNode_push h]
  case map => simp only [MapField.ofNode_push h]
  case oneof => simp only [Oneof.ofNode_push h]
  case option => simp only [Setting.ofNode_push h]
  case reserved => simp only [Reserved.ofNode_push h]
  case message | enum => cases hkind

theorem EnumMember.ofNode_push (h : Foreign node.kind child) :
    ofNode (node.push child) = ofNode node := by
  rw [ofNode, ofNode, kind_push]
  cases hnode : node.kind <;> rw [hnode] at h
  case enumConstant => simp only [EnumValue.ofNode_push h]
  case option => simp only [Setting.ofNode_push h]
  case reserved => simp only [Reserved.ofNode_push h]

theorem ServiceMember.ofNode_push (h : Foreign node.kind child) :
    ofNode (node.push child) = ofNode node := by
  rw [ofNode, ofNode, kind_push]
  cases hnode : node.kind <;> rw [hnode] at h
  case method => simp only [Method.ofNode_push h]
  case option => simp only [Setting.ofNode_push h]

end Foreign

/-- **A tree that describes a file has no foreign children where each child is looked at**: in the
file, and in messages, enums and services at any depth. If the other nodes, those whose parts are
looked up by kind, have none either, then no node outside comments has any; but a foreign child of
such a node changes nothing. The children that are not foreign are those that the trees of texts
have. -/
theorem foreign_child_refused (root : Node) (source : String) :
    (∀ file, File.ofNode root = .ok file →
      (∀ node, root.Within Node.Kind.isChecked node → node.Conforms) ∧
        ((∀ node, root.Within (· != .comment) node → node.kind.isChecked = false →
          node.Conforms) → ∀ node, root.Within (· != .comment) node → node.Conforms)) ∧
    (∀ node child, node.kind.isChecked = false → Node.Foreign node.kind child →
      FileMember.ofNode (node.push child) = FileMember.ofNode node ∧
        MessageMember.ofNode (node.push child) = MessageMember.ofNode node ∧
        EnumMember.ofNode (node.push child) = EnumMember.ofNode node ∧
        ServiceMember.ofNode (node.push child) = ServiceMember.ofNode node) ∧
    ∀ through node, Node.Within through (Tree.ofSource source).root node → node.Conforms := by
  refine ⟨?_, ?_, ?_⟩
  · intro file hfile
    have hroot := Node.accepted_root hfile
    exact ⟨fun node => hroot.1.conforms_of_checked hroot.2,
      fun hothers node => hroot.1.conforms_of_others hothers⟩
  · intro node child hkind h
    exact ⟨FileMember.ofNode_push hkind h, MessageMember.ofNode_push hkind h,
      EnumMember.ofNode_push h, ServiceMember.ofNode_push h⟩
  · intro through node hwithin
    have hevery := Tree.every_ofTokens (Grammar.gives_conforms (tokenize source))
    exact (hevery.of_within hwithin).here

/-- A message with a oneof, behind a comment with a child that no comment has. -/
def handBuilt : Node :=
  ⟨.root, "", [⟨.comment, "//", [.leaf .service "S"]⟩,
    ⟨.message, "message", [.leaf .identifier "M", ⟨.oneof, "oneof", [.leaf .identifier "o"]⟩]⟩]⟩

/-- The nodes of the tree outside the comment. -/
def handBuiltParts : List Node :=
  [handBuilt,
   ⟨.message, "message", [.leaf .identifier "M", ⟨.oneof, "oneof", [.leaf .identifier "o"]⟩]⟩,
   ⟨.oneof, "oneof", [.leaf .identifier "o"]⟩, .leaf .identifier "M", .leaf .identifier "o"]

/-- The tree describes a file, no node outside the comment has a foreign child, and a message that
is put into the oneof would be passed over. -/
theorem foreign_child_refused_handBuilt :
    (∃ file, File.ofNode handBuilt = .ok file) ∧
      (∀ node, handBuilt.Within (· != .comment) node → node.Conforms) ∧
      MessageMember.ofNode
        (Node.push ⟨.oneof, "oneof", [.leaf .identifier "o"]⟩ (.leaf .message "N")) =
          MessageMember.ofNode ⟨.oneof, "oneof", [.leaf .identifier "o"]⟩ := by
  refine ⟨⟨_, rfl⟩, ?_, ?_⟩
  · refine ((foreign_child_refused handBuilt "").1 _ rfl).2 ?_
    intro node hwithin hkind
    have hmem : node ∈ handBuiltParts := hwithin.mem_of_closed (by decide) (by decide)
    have hall : ∀ part ∈ handBuiltParts, part.kind.isChecked = false → part.Conforms := by decide
    exact hall node hmem hkind
  · exact ((foreign_child_refused handBuilt "").2.1 _ (.leaf .message "N") rfl
      (by unfold Node.Foreign; decide)).2.1

/-- A oneof with a message inside. -/
def messageInOneof : Node :=
  ⟨.oneof, "oneof", [.leaf .identifier "o", ⟨.message, "message", [.leaf .identifier "N"]⟩]⟩

/-- **A foreign child may be passed over in silence**: a message inside a oneof is not described,
and not reported either. -/
theorem foreign_child_accepted :
    ¬∀ root, (∃ file, File.ofNode root = .ok file) →
      ∀ node, root.Within (· != .comment) node → node.Conforms := by
  intro h
  have hconforms : messageInOneof.Conforms :=
    h ⟨.root, "", [⟨.message, "message", [.leaf .identifier "M", messageInOneof]⟩]⟩ ⟨_, rfl⟩ _
      (.child (.child .root List.mem_cons_self rfl)
        (List.mem_cons_of_mem _ List.mem_cons_self) rfl)
  exact absurd hconforms (by decide)

end ProtoSchema
