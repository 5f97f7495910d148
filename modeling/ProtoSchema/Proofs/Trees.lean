import ProtoSchema.Proofs.Literals
import ProtoSchema.Proofs.Lowering
import ProtoSchema.Proofs.WellFormed

/-!
# The trees of schemas

Every declaration has a tree that describes it, with numbers in decimal and the members in the order
in which they are written: options first, then the other members sort by sort.

* `Field.toNode`, `Message.toNode`, ...: the trees of declarations.
* `Message.ofMembers_members`, ...: a block is made of its members.
* `File.ofNode_toNodes`: the trees of a file describe the file.
-/

namespace ProtoSchema

/-! ### Trees -/

/-- The nodes of the labels of a field. -/
def Field.labelNodes (field : Field) : List Node :=
  (if field.repeated then [.leaf .repeated "repeated"] else []) ++
    if field.optional then [.leaf .optional "optional"] else []

/-- The node of a field. -/
def Field.toNode (field : Field) : Node :=
  ⟨.field, "", (field.labelNodes ++ [.leaf (Parse.typeKind field.type.text) field.type.text,
    .leaf .identifier field.name.text, .leaf .fieldNumber (toString field.number)]) ++
    field.settings.map Setting.toNode⟩

/-- The node of a map. -/
def MapField.toNode (map : MapField) : Node :=
  ⟨.map, "map", [.leaf .mapKey map.key.text, .leaf .mapValue map.value.text,
    .leaf .identifier map.name.text, .leaf .fieldNumber (toString map.number)] ++
    map.settings.map Setting.toNode⟩

/-- The node of a constant. -/
def EnumValue.toNode (value : EnumValue) : Node :=
  ⟨.enumConstant, "", [.leaf .identifier value.name.text,
    .leaf .fieldNumber (toString value.number)] ++ value.settings.map Setting.toNode⟩

/-- The node of a range. -/
def ReservedRange.toNode (range : ReservedRange) : Node :=
  match range.stop with
  | .max => ⟨.range, toString range.start, [.leaf .rangeEnd "max"]⟩
  | .number stop =>
    if stop = range.start then ⟨.range, toString range.start, []⟩
    else ⟨.range, toString range.start, [.leaf .rangeEnd (toString stop)]⟩

/-- The node of a reserved statement. -/
def Reserved.toNode : Reserved → Node
  | names entries =>
    ⟨.reserved, "reserved", entries.map fun name => .leaf .stringLiteral name.text⟩
  | ranges entries => ⟨.reserved, "reserved", entries.map ReservedRange.toNode⟩

/-- The node of a request or a response. -/
def Payload.toNode (payload : Payload) (kind : Node.Kind) : Node :=
  ⟨kind, payload.name.text, if payload.streaming then [.leaf .stream "stream"] else []⟩

/-- The node of a method without its options. -/
def Method.signatureNode (method : Method) : Node :=
  ⟨.method, "rpc", [.leaf .identifier method.name.text, method.input.toNode .methodInput,
    method.output.toNode .methodOutput]⟩

/-- The node of a method. -/
def Method.toNode (method : Method) : Node :=
  method.signatureNode.append (method.settings.map Setting.toNode)

/-- The node of a version. -/
def Version.toNode (version : Version) : Node :=
  ⟨.version, "syntax", [.leaf .stringLiteral version.text]⟩

/-- The node of an import. -/
def Import.toNode (file : Import) : Node :=
  ⟨.importFile, "import", file.modifier.toList.map (fun modifier =>
    .leaf .importModifier modifier.text) ++ [.leaf .stringLiteral file.path]⟩

/-- The node of a package. -/
def packageNode (name : Name) : Node := ⟨.package, "package", [.leaf .identifier name.text]⟩

/-- The node of a block that is written with a word and a name. -/
def blockNode (kind : Node.Kind) (word : String) (name : Name) : Node :=
  ⟨kind, word, [.leaf .identifier name.text]⟩

/-- The node of a oneof. -/
def Oneof.toNode (oneof : Oneof) : Node :=
  (blockNode .oneof "oneof" oneof.name).append
    (oneof.settings.map Setting.toNode ++ oneof.fields.map Field.toNode)

/-- The node of an enum. -/
def Enum.toNode (enum : Enum) : Node :=
  (blockNode .enum "enum" enum.name).append
    (enum.settings.map Setting.toNode ++ (enum.values.map EnumValue.toNode ++
      enum.reserved.map Reserved.toNode))

/-- The node of a service. -/
def Service.toNode (service : Service) : Node :=
  (blockNode .service "service" service.name).append
    (service.settings.map Setting.toNode ++ service.methods.map Method.toNode)

mutual

/-- The node of a message. -/
def Message.toNode : Message → Node
  | ⟨name, fields, oneofs, settings, maps, enums, messages, reserved⟩ =>
    (blockNode .message "message" name).append
      (settings.map Setting.toNode ++ (fields.map Field.toNode ++ (maps.map MapField.toNode ++
        (oneofs.map Oneof.toNode ++ (enums.map Enum.toNode ++
          (Message.toNodes messages ++ reserved.map Reserved.toNode))))))

/-- The nodes of several messages. -/
def Message.toNodes : List Message → List Node
  | [] => []
  | message :: rest => message.toNode :: Message.toNodes rest

end

/-- The nodes of the statements of a file. -/
def File.toNodes (file : File) : List Node :=
  file.version.toList.map Version.toNode ++ (file.package.toList.map packageNode ++
    (file.imports.map Import.toNode ++ (file.settings.map Setting.toNode ++
      (file.messages.map Message.toNode ++ (file.enums.map Enum.toNode ++
        file.services.map Service.toNode)))))

theorem Message.toNodes_eq (messages : List Message) : toNodes messages = messages.map toNode := by
  induction messages with
  | nil => rw [toNodes, List.map_nil]
  | cons message rest ih => rw [toNodes, List.map_cons, ih]

theorem Message.toNode_eq (message : Message) :
    message.toNode = (blockNode .message "message" message.name).append
      (message.settings.map Setting.toNode ++ (message.fields.map Field.toNode ++
        (message.maps.map MapField.toNode ++ (message.oneofs.map Oneof.toNode ++
          (message.enums.map Enum.toNode ++ (message.messages.map toNode ++
            message.reserved.map Reserved.toNode)))))) := by
  cases message
  rw [toNode, toNodes_eq]

theorem Message.kind_toNode (message : Message) : message.toNode.kind = .message := by
  rw [toNode_eq]
  rfl

/-! ### Members in the order in which they are written -/

/-- The members of an enum. -/
def Enum.members (enum : Enum) : List EnumMember :=
  enum.settings.map .setting ++ (enum.values.map .value ++ enum.reserved.map .reserved)

/-- The members of a service. -/
def Service.members (service : Service) : List ServiceMember :=
  service.settings.map .setting ++ service.methods.map .method

/-- The members of a message. -/
def Message.members (message : Message) : List MessageMember :=
  message.settings.map .setting ++ (message.fields.map .field ++ (message.maps.map .map ++
    (message.oneofs.map .oneof ++ (message.enums.map .enum ++
      (message.messages.map .message ++ message.reserved.map .reserved)))))

/-- The statements of a file. -/
def File.members (file : File) : List FileMember :=
  file.version.toList.map .version ++ (file.package.toList.map .package ++
    (file.imports.map .imported ++ (file.settings.map .setting ++
      (file.messages.map .message ++ (file.enums.map .enum ++ file.services.map .service)))))

theorem Enum.ofMembers_members (enum : Enum) : ofMembers enum.name enum.members = enum := by
  simp [ofMembers, members, List.filterMap_map]

theorem Service.ofMembers_members (service : Service) :
    ofMembers service.name service.members = service := by
  simp [ofMembers, members, List.filterMap_map]

theorem Message.ofMembers_members (message : Message) :
    ofMembers message.name message.members = message := by
  cases message
  simp [ofMembers, members, List.filterMap_map]

theorem File.ofMembers_members (file : File) : ofMembers file.members = file := by
  obtain ⟨version, package, settings, imports, messages, enums, services⟩ := file
  cases version <;> cases package <;> simp [ofMembers, members, List.filterMap_map]

/-! ### A tree describes its declaration -/

/-- Nodes in a row describe the items that they are the nodes of. -/
theorem Node.collect_map {α β : Type} {read : Node → Described (Option α)}
    {part : Node → Described β} {toNode : β → Node} {inject : β → α} {items : List β}
    (hread : ∀ item, read (toNode item) = do return some (inject (← part (toNode item))))
    (h : ∀ item ∈ items, part (toNode item) = .ok item) :
    collect read (items.map toNode) = .ok (items.map inject) := by
  induction items with
  | nil => rfl
  | cons item rest ih =>
    rw [List.forall_mem_cons] at h
    rw [List.map_cons, collect, hread, h.1, Described.ok_bind, ih h.2]
    rfl

theorem Node.mapM_map {α : Type} {read : Node → Described α} {toNode : α → Node} {items : List α}
    (h : ∀ item ∈ items, read (toNode item) = .ok item) :
    (items.map toNode).mapM read = .ok items := by
  refine mapM_eq_ok ?_
  rw [List.forall₂_map_left_iff, List.forall₂_same]
  exact h

/-- Numbers of either domain have 32 bits. -/
theorem NumberDomain.bounds {domain : NumberDomain} {number : Int}
    (h : domain.contains number = true) : -2147483648 ≤ number ∧ number ≤ 2147483647 := by
  rw [contains_iff] at h
  cases domain <;> simp only [low, high] at h <;> omega

theorem NumberDomain.integer?_toString {domain : NumberDomain} {number : Int}
    (h : domain.contains number = true) : Lexeme.integer? (toString number) = some number :=
  Lexeme.integer?_toString (bounds h).1 (bounds h).2

theorem NumberDomain.integer?_toString_nat {domain : NumberDomain} {number : Nat}
    (h : domain.contains number = true) :
    Lexeme.integer? (toString number) = some (number : Int) := by
  refine Lexeme.integer?_toString_nat ?_
  have := (bounds h).2
  simp only [Lexeme.maxWord]
  omega

theorem FieldType.ofText_text {type : FieldType} (h : type.WellFormed .printable) :
    ofText type.text = type := by
  cases type with
  | scalar scalar => rw [text, ofText, Scalar.ofText?_text]
  | user name =>
    simp only [WellFormed, Vocabulary.printable, Bool.and_eq_true, Option.isNone_iff_eq_none] at h
    rw [text, ofText, h.1.1.2]

theorem Field.labels_labelNodes {field : Field}
    (h : ¬ (field.repeated = true ∧ field.optional = true)) :
    Labels field.labelNodes field.repeated field.optional := by
  unfold labelNodes
  cases hrepeated : field.repeated <;> cases hoptional : field.optional
  · exact .none
  · exact .optional
  · exact .repeated
  · exact absurd ⟨hrepeated, hoptional⟩ h

theorem Field.ofNode_toNode {field : Field} (h : field.WellFormed .printable) :
    Field.ofNode field.toNode = .ok field := by
  rw [toNode, ofNode_eq (labels_labelNodes h.labels) (NumberDomain.integer?_toString_nat h.number)
    h.number, FieldType.ofText_text h.type]

theorem MapField.ofNode_toNode {map : MapField} (h : map.WellFormed .printable) :
    MapField.ofNode map.toNode = .ok map := by
  have hkey : Scalar.mapKeyOfText? map.key.text = some map.key := by
    rw [Scalar.mapKeyOfText?, Scalar.ofText?_text, Option.filter_some, if_pos h.key]
  rw [toNode, ofNode_eq hkey (NumberDomain.integer?_toString_nat h.number) h.number,
    FieldType.ofText_text h.value]

theorem EnumValue.ofNode_toNode {value : EnumValue} (h : value.WellFormed .printable) :
    EnumValue.ofNode value.toNode = .ok value := by
  rw [toNode, ofNode_eq (NumberDomain.integer?_toString h.number) h.number]

theorem ReservedRange.ofNode_toNode {domain : NumberDomain} {range : ReservedRange}
    (h : range.WellFormed domain) : ReservedRange.ofNode range.toNode = .ok range := by
  obtain ⟨start, stop⟩ := range
  have hstart := NumberDomain.integer?_toString h.start
  cases stop with
  | max => exact ofNode_max hstart
  | number stop =>
    by_cases hsingle : stop = start
    · subst hsingle
      simp only [toNode, if_true]
      exact ofNode_single hstart
    · simp only [toNode, if_neg hsingle]
      exact ofNode_between hstart (NumberDomain.integer?_toString h.stop.1)

theorem ReservedRange.kind_toNode (range : ReservedRange) : range.toNode.kind = .range := by
  unfold toNode
  split
  · rfl
  · split <;> rfl

theorem Reserved.ofNode_toNode {domain : NumberDomain} {reserved : Reserved}
    (h : reserved.WellFormed domain) : Reserved.ofNode reserved.toNode = .ok reserved := by
  cases reserved with
  | names entries => exact ofNode_names h
  | ranges entries =>
    refine ofNode_ranges ?_ ?_
    · intro node hnode
      obtain ⟨range, -, rfl⟩ := List.mem_map.1 hnode
      exact range.kind_toNode
    · rw [List.forall₂_map_left_iff, List.forall₂_same]
      intro range hrange
      exact ReservedRange.ofNode_toNode (h.2 range hrange)

theorem Version.ofNode_toNode (version : Version) :
    Version.ofNode version.toNode = .ok version := by
  cases version <;> rfl

theorem Import.ofNode_toNode (file : Import) : Import.ofNode file.toNode = .ok file := by
  obtain ⟨modifier, path⟩ := file
  cases modifier with
  | none => rfl
  | some modifier => cases modifier <;> rfl

/-- A filter keeps all nodes of one kind or none of them. -/
theorem Node.filter_map {α : Type} (toNode : α → Node) {kind wanted : Node.Kind}
    (h : ∀ item, (toNode item).kind = kind) (items : List α) :
    (items.map toNode).filter (·.kind == wanted) =
      if kind = wanted then items.map toNode else [] := by
  induction items with
  | nil => simp
  | cons item rest ih =>
    rw [List.map_cons, List.filter_cons, ih, h item]
    by_cases hkind : kind = wanted <;> simp [hkind]

theorem Oneof.ofNode_toNode {oneof : Oneof} (h : oneof.WellFormed .printable) :
    Oneof.ofNode oneof.toNode = .ok oneof := by
  -- the fields and the options are picked by their kinds
  have hfields : ((oneof.settings.map Setting.toNode ++ oneof.fields.map Field.toNode).filter
      (·.kind == .field)).mapM Field.ofNode = .ok oneof.fields := by
    rw [List.filter_append, Node.filter_map Setting.toNode fun _ => rfl,
      Node.filter_map Field.toNode fun _ => rfl]
    exact Node.mapM_map fun field hfield => Field.ofNode_toNode (h.fields field hfield)
  have hsettings : ((oneof.settings.map Setting.toNode ++ oneof.fields.map Field.toNode).filter
      (·.kind == .option)).mapM Setting.ofNode = .ok oneof.settings := by
    rw [List.filter_append, Node.filter_map Setting.toNode fun _ => rfl,
      Node.filter_map Field.toNode fun _ => rfl, if_pos rfl, if_neg (by decide), List.append_nil]
    exact Node.mapM_map fun setting _ => setting.ofNode_toNode
  exact ofNode_eq hfields hsettings

theorem Method.ofNode_toNode (method : Method) : Method.ofNode method.toNode = .ok method := by
  have hsettings : ((method.settings.map Setting.toNode).filter (·.kind == .option)).mapM
      Setting.ofNode = .ok method.settings := by
    rw [Node.filter_map Setting.toNode fun _ => rfl]
    exact Node.mapM_map fun setting _ => setting.ofNode_toNode
  refine (ofNode_eq hsettings).trans ?_
  obtain ⟨name, ⟨input, streams⟩, ⟨output, streams'⟩, settings⟩ := method
  cases streams <;> cases streams' <;> rfl

theorem Enum.ofNode_toNode {enum : Enum} (h : enum.WellFormed .printable) :
    Enum.ofNode enum.toNode = .ok enum := by
  have hsettings : Node.collect EnumMember.ofNode (enum.settings.map Setting.toNode) =
      .ok (enum.settings.map .setting) :=
    Node.collect_map (fun _ => rfl) fun setting _ => setting.ofNode_toNode
  have hvalues : Node.collect EnumMember.ofNode (enum.values.map EnumValue.toNode) =
      .ok (enum.values.map .value) :=
    Node.collect_map (fun _ => rfl) fun value hmem => EnumValue.ofNode_toNode (h.values value hmem)
  have hreserved : Node.collect EnumMember.ofNode (enum.reserved.map Reserved.toNode) =
      .ok (enum.reserved.map .reserved) :=
    Node.collect_map (by rintro (_ | _) <;> rfl) fun reserved hmem =>
      Reserved.ofNode_toNode (h.reserved reserved hmem)
  have hmembers := Node.collect_append hsettings (Node.collect_append hvalues hreserved)
  exact (ofNode_eq hmembers).trans (congrArg _ enum.ofMembers_members)

theorem Service.ofNode_toNode (service : Service) :
    Service.ofNode service.toNode = .ok service := by
  have hsettings : Node.collect ServiceMember.ofNode (service.settings.map Setting.toNode) =
      .ok (service.settings.map .setting) :=
    Node.collect_map (fun _ => rfl) fun setting _ => setting.ofNode_toNode
  have hmethods : Node.collect ServiceMember.ofNode (service.methods.map Method.toNode) =
      .ok (service.methods.map .method) :=
    Node.collect_map (fun _ => rfl) fun method _ => method.ofNode_toNode
  have hmembers := Node.collect_append hsettings hmethods
  exact (ofNode_eq hmembers).trans (congrArg _ service.ofMembers_members)

/-- **The tree of a message describes the message**, whatever is nested in it. -/
theorem Message.ofNode_toNode {message : Message} (h : message.WellFormed .printable) :
    Message.ofNode message.toNode = .ok message := by
  induction h with
  | @intro message name fields oneofs settings maps enums messages reserved ih =>
    have hsettings : Node.collect MessageMember.ofNode (message.settings.map Setting.toNode) =
        .ok (message.settings.map .setting) :=
      Node.collect_map (fun _ => rfl) fun setting _ => setting.ofNode_toNode
    have hfields : Node.collect MessageMember.ofNode (message.fields.map Field.toNode) =
        .ok (message.fields.map .field) :=
      Node.collect_map (fun _ => rfl) fun field hmem => Field.ofNode_toNode (fields field hmem)
    have hmaps : Node.collect MessageMember.ofNode (message.maps.map MapField.toNode) =
        .ok (message.maps.map .map) :=
      Node.collect_map (fun _ => rfl) fun map hmem => MapField.ofNode_toNode (maps map hmem)
    have honeofs : Node.collect MessageMember.ofNode (message.oneofs.map Oneof.toNode) =
        .ok (message.oneofs.map .oneof) :=
      Node.collect_map (fun _ => rfl) fun oneof hmem => Oneof.ofNode_toNode (oneofs oneof hmem)
    have henums : Node.collect MessageMember.ofNode (message.enums.map Enum.toNode) =
        .ok (message.enums.map .enum) :=
      Node.collect_map (fun _ => rfl) fun enum hmem => Enum.ofNode_toNode (enums enum hmem)
    have hmessages : Node.collect MessageMember.ofNode (message.messages.map toNode) =
        .ok (message.messages.map .message) :=
      Node.collect_map (fun inner => by rw [MessageMember.ofNode, inner.kind_toNode]) ih
    have hreserved : Node.collect MessageMember.ofNode (message.reserved.map Reserved.toNode) =
        .ok (message.reserved.map .reserved) :=
      Node.collect_map (by rintro (_ | _) <;> rfl) fun reserved' hmem =>
        Reserved.ofNode_toNode (reserved reserved' hmem)
    have hmembers := Node.collect_append hsettings (Node.collect_append hfields
      (Node.collect_append hmaps (Node.collect_append honeofs (Node.collect_append henums
        (Node.collect_append hmessages hreserved)))))
    rw [toNode_eq]
    exact (ofNode_eq hmembers).trans (congrArg _ message.ofMembers_members)

theorem name_packageNode (name : Name) : Node.name (packageNode name) = .ok name := rfl

/-- **The trees of a file describe the file.** -/
theorem File.ofNode_toNodes {file : File} (h : file.WellFormed .printable) :
    File.ofNode (Node.emptyRoot.append file.toNodes) = .ok file := by
  have hversion : Node.collect FileMember.ofNode (file.version.toList.map Version.toNode) =
      .ok (file.version.toList.map .version) :=
    Node.collect_map (fun _ => rfl) fun version _ => version.ofNode_toNode
  have hpackage : Node.collect FileMember.ofNode (file.package.toList.map packageNode) =
      .ok (file.package.toList.map .package) :=
    Node.collect_map (fun _ => rfl) fun name _ => name_packageNode name
  have himports : Node.collect FileMember.ofNode (file.imports.map Import.toNode) =
      .ok (file.imports.map .imported) :=
    Node.collect_map (fun _ => rfl) fun imported _ => imported.ofNode_toNode
  have hsettings : Node.collect FileMember.ofNode (file.settings.map Setting.toNode) =
      .ok (file.settings.map .setting) :=
    Node.collect_map (fun _ => rfl) fun setting _ => setting.ofNode_toNode
  have hmessages : Node.collect FileMember.ofNode (file.messages.map Message.toNode) =
      .ok (file.messages.map .message) :=
    Node.collect_map (fun message => by rw [FileMember.ofNode, message.kind_toNode])
      fun message hmem => Message.ofNode_toNode (h.messages message hmem)
  have henums : Node.collect FileMember.ofNode (file.enums.map Enum.toNode) =
      .ok (file.enums.map .enum) :=
    Node.collect_map (fun _ => rfl) fun enum hmem => Enum.ofNode_toNode (h.enums enum hmem)
  have hservices : Node.collect FileMember.ofNode (file.services.map Service.toNode) =
      .ok (file.services.map .service) :=
    Node.collect_map (fun _ => rfl) fun service _ => service.ofNode_toNode
  have hmembers := Node.collect_append hversion (Node.collect_append hpackage
    (Node.collect_append himports (Node.collect_append hsettings (Node.collect_append hmessages
      (Node.collect_append henums hservices)))))
  exact (ofNode_eq hmembers).trans (congrArg _ file.ofMembers_members)

end ProtoSchema
