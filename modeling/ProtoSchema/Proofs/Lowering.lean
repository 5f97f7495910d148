import Mathlib.Data.List.Forall2
import ProtoSchema.Schema.OfNode.File
import ProtoSchema.Statement.Field

/-!
# What nodes of the usual shapes describe

A node describes a declaration if its children do, so there is one lemma for each shape that a
statement may leave. The texts of numbers are left open: a number may be written in several ways.

* `Node.mapM_eq_ok`, `Node.collect_eq_ok`: children in a row.
* `Field.ofNode_eq`, `Reserved.ofNode_names`, `Method.ofNode_eq`, ...: one declaration each.
* `MessageMember.ofNodes_eq`: the members of a message, as those of the other blocks.
-/

namespace ProtoSchema

@[simp] theorem Described.ok_bind {α β : Type} (value : α) (next : α → Described β) :
    (Except.ok value >>= next) = next value := rfl

namespace Node

@[simp] theorem kind_leaf (kind : Kind) (value : String) : (leaf kind value).kind = kind := rfl

@[simp] theorem value_leaf (kind : Kind) (value : String) : (leaf kind value).value = value := rfl

variable {α : Type} {nodes others : List Node}

theorem mapM_eq_ok {read : Node → Described α} {values : List α}
    (h : List.Forall₂ (fun node value => read node = .ok value) nodes values) :
    nodes.mapM read = .ok values := by
  induction h with
  | nil => rfl
  | cons hread _ ih =>
    rw [List.mapM_cons, hread, Described.ok_bind, ih]
    rfl

/-- Children in a row describe what each of them does. -/
theorem collect_eq_ok {read : Node → Described (Option α)} {founds : List (Option α)}
    (h : List.Forall₂ (fun node found => read node = .ok found) nodes founds) :
    collect read nodes = .ok (founds.flatMap Option.toList) := by
  induction h with
  | nil => rfl
  | cons hread _ ih =>
    rw [collect, hread, Described.ok_bind, ih, Described.ok_bind, List.flatMap_cons]
    rfl

theorem collect_append {read : Node → Described (Option α)} {first second : List α}
    (hfirst : collect read nodes = .ok first) (hsecond : collect read others = .ok second) :
    collect read (nodes ++ others) = .ok (first ++ second) := by
  induction nodes generalizing first with
  | nil =>
    cases hfirst
    exact hsecond
  | cons node rest ih =>
    rw [collect] at hfirst
    cases hread : read node with
    | error fault => rw [hread] at hfirst; cases hfirst
    | ok found =>
      cases hrest : collect read rest with
      | error fault => rw [hread, Described.ok_bind, hrest] at hfirst; cases hfirst
      | ok more =>
        rw [hread, Described.ok_bind, hrest, Described.ok_bind] at hfirst
        cases hfirst
        rw [List.cons_append, collect, hread, Described.ok_bind, ih hrest, Described.ok_bind,
          List.append_assoc]
        rfl

end Node

/-! ### Options and the parts that have them -/

/-- The node of an option. -/
def Setting.toNode (setting : Setting) : Node :=
  ⟨.option, "option", [.leaf .identifier setting.name.text, .leaf .optionValue setting.value]⟩

@[simp] theorem Setting.ofNode_toNode (setting : Setting) :
    Setting.ofNode setting.toNode = .ok setting := rfl

section Settings

variable {kind wanted : Node.Kind} {value : String} {heads : List Node} (settings : List Setting)

/-- The nodes of options describe the options, after any children of other kinds. -/
theorem Setting.allOf_append (hheads : ∀ node ∈ heads, node.kind ≠ .option) :
    Setting.allOf ⟨kind, value, heads ++ settings.map toNode⟩ = .ok settings := by
  have hfilter : Node.filter ⟨kind, value, heads ++ settings.map toNode⟩ .option =
      settings.map toNode := by
    rw [Node.filter, List.filter_append, List.filter_eq_nil_iff.2 (by simpa using hheads),
      List.nil_append, List.filter_eq_self]
    intro node hnode
    obtain ⟨setting, -, rfl⟩ := List.mem_map.1 hnode
    rfl
  rw [allOf, hfilter]
  refine Node.mapM_eq_ok ?_
  rw [List.forall₂_map_left_iff, List.forall₂_same]
  intro setting _
  rfl

/-- Options hide no child of another kind. -/
theorem Node.find?_settings (hwanted : wanted ≠ .option) :
    Node.find? ⟨kind, value, heads ++ settings.map Setting.toNode⟩ wanted =
      Node.find? ⟨kind, value, heads⟩ wanted := by
  have hnone : (settings.map Setting.toNode).find? (·.kind == wanted) = none := by
    rw [List.find?_eq_none]
    intro node hnode
    obtain ⟨setting, -, rfl⟩ := List.mem_map.1 hnode
    simpa [Setting.toNode] using hwanted.symm
  rw [find?, find?, List.find?_append, hnone, Option.or_none]

theorem Node.require_settings (hwanted : wanted ≠ .option) :
    Node.require ⟨kind, value, heads ++ settings.map Setting.toNode⟩ wanted =
      Node.require ⟨kind, value, heads⟩ wanted := by
  rw [require, require, find?_settings settings hwanted]

end Settings

/-- A number that reads as a field number is one. -/
theorem Node.fieldNumber_eq {number : String} {value : Nat}
    (hnumber : Lexeme.integer? number = some (value : Int))
    (hdomain : NumberDomain.fieldNumber.contains value = true) :
    Node.fieldNumber (.leaf .fieldNumber number) = .ok value := by
  rw [NumberDomain.contains_iff] at hdomain
  have hword : (value : Int) ≤ 4294967295 := by
    have := hdomain.2
    simp only [NumberDomain.high] at this
    omega
  simp [fieldNumber, leaf, readValue, hnumber, hword]

/-- The label of a field, if it has one. -/
inductive Labels : List Node → Bool → Bool → Prop
  | none : Labels [] false false
  | repeated {text : String} : Labels [.leaf .repeated text] true false
  | optional {text : String} : Labels [.leaf .optional text] false true

/-- A field: a label, the type, the name, the number and options. -/
theorem Field.ofNode_eq {labels : List Node} {repeated optional : Bool}
    {type name number : String} {value : Nat} (hlabels : Labels labels repeated optional)
    (hnumber : Lexeme.integer? number = some (value : Int))
    (hdomain : NumberDomain.fieldNumber.contains value = true) (settings : List Setting) :
    Field.ofNode ⟨.field, "", (labels ++ [.leaf (Parse.typeKind type) type,
        .leaf .identifier name, .leaf .fieldNumber number]) ++ settings.map Setting.toNode⟩ =
      .ok { name := ⟨name⟩, number := value, type := .ofText type, repeated, optional, settings }
    := by
  have hvalue := Node.fieldNumber_eq hnumber hdomain
  have hkind : Parse.typeKind type ≠ .option := by
    unfold Parse.typeKind
    split <;> decide
  rw [ofNode, FieldType.ofNode, Node.name, Node.has, Node.has, Node.require_settings _ (by decide),
    Node.require_settings _ (by decide), Node.require_settings _ (by decide),
    Node.find?_settings _ (by decide), Node.find?_settings _ (by decide),
    Node.find?_settings _ (by decide), Setting.allOf_append, FieldType.ofText]
  · unfold Parse.typeKind
    cases hscalar : Scalar.ofText? type <;> cases hlabels <;>
      simp [Node.find?, Node.require, Node.readValue, hscalar, hvalue]
  · cases hlabels <;> simp [hkind]

/-- A map: the types of its keys and values, the name, the number and options. -/
theorem MapField.ofNode_eq {keyword key type name number : String} {scalar : Scalar} {value : Nat}
    (hkey : Scalar.mapKeyOfText? key = some scalar)
    (hnumber : Lexeme.integer? number = some (value : Int))
    (hdomain : NumberDomain.fieldNumber.contains value = true) (settings : List Setting) :
    MapField.ofNode ⟨.map, keyword, [.leaf .mapKey key, .leaf .mapValue type,
        .leaf .identifier name, .leaf .fieldNumber number] ++ settings.map Setting.toNode⟩ =
      .ok { name := ⟨name⟩, number := value, key := scalar, value := .ofText type, settings } := by
  rw [ofNode, Node.name, Node.require_settings _ (by decide), Node.require_settings _ (by decide),
    Node.require_settings _ (by decide), Node.require_settings _ (by decide), Setting.allOf_append]
  · simp [Node.find?, Node.require, Node.readValue, hkey, Node.fieldNumber_eq hnumber hdomain]
  · simp

/-- A constant of an enum: the name, the number and options. -/
theorem EnumValue.ofNode_eq {name number : String} {value : Int}
    (hnumber : Lexeme.integer? number = some value)
    (hdomain : NumberDomain.enumValue.contains value = true) (settings : List Setting) :
    EnumValue.ofNode ⟨.enumConstant, "", [.leaf .identifier name, .leaf .fieldNumber number] ++
        settings.map Setting.toNode⟩ =
      .ok { name := ⟨name⟩, number := value, settings } := by
  rw [ofNode, Node.name, Node.require_settings _ (by decide), Node.require_settings _ (by decide),
    Setting.allOf_append]
  · simp [Node.find?, Node.require, Node.enumNumber, Node.readValue, hnumber, Option.filter,
      hdomain]
  · simp

/-! ### Reserved statements -/

theorem ReservedRange.ofNode_single {first : String} {start : Int}
    (hfirst : Lexeme.integer? first = some start) :
    ReservedRange.ofNode ⟨.range, first, []⟩ = .ok ⟨start, .number start⟩ := by
  simp [ofNode, Node.integer, Node.readValue, hfirst, RangeEnd.ofNode, Node.find?]

theorem ReservedRange.ofNode_between {first last : String} {start stop : Int}
    (hfirst : Lexeme.integer? first = some start) (hlast : Lexeme.integer? last = some stop) :
    ReservedRange.ofNode ⟨.range, first, [.leaf .rangeEnd last]⟩ = .ok ⟨start, .number stop⟩ := by
  have hmax : last ≠ "max" := by
    rintro rfl
    rw [show Lexeme.integer? "max" = none by decide] at hlast
    cases hlast
  simp [ofNode, Node.integer, Node.readValue, hfirst, RangeEnd.ofNode, Node.find?, hmax, hlast]

theorem ReservedRange.ofNode_max {first : String} {start : Int}
    (hfirst : Lexeme.integer? first = some start) :
    ReservedRange.ofNode ⟨.range, first, [.leaf .rangeEnd "max"]⟩ = .ok ⟨start, .max⟩ := by
  simp [ofNode, Node.integer, Node.readValue, hfirst, RangeEnd.ofNode, Node.find?]

/-- Reserved names. -/
theorem Reserved.ofNode_names {keyword : String} {names : List Name} (hnames : names ≠ []) :
    Reserved.ofNode ⟨.reserved, keyword, names.map fun name => .leaf .stringLiteral name.text⟩ =
      .ok (.names names) := by
  have hfilter : Node.filter ⟨.reserved, keyword, names.map fun name =>
      .leaf .stringLiteral name.text⟩ .stringLiteral = names.map fun name =>
      .leaf .stringLiteral name.text := by
    rw [Node.filter, List.filter_eq_self]
    simp
  rw [ofNode, if_pos, hfilter, List.map_map]
  · simp [Function.comp_def]
  · obtain ⟨first, others, rfl⟩ := List.exists_cons_of_ne_nil hnames
    simp [Node.has, Node.find?]

/-- Reserved ranges. -/
theorem Reserved.ofNode_ranges {keyword : String} {nodes : List Node} {ranges : List ReservedRange}
    (hkinds : ∀ node ∈ nodes, node.kind = .range)
    (hranges :
      List.Forall₂ (fun node range => ReservedRange.ofNode node = .ok range) nodes ranges) :
    Reserved.ofNode ⟨.reserved, keyword, nodes⟩ = .ok (.ranges ranges) := by
  -- no entry is quoted, so that the entries are taken for ranges
  have hnone : Node.find? ⟨.reserved, keyword, nodes⟩ .stringLiteral = none := by
    rw [Node.find?, List.find?_eq_none]
    intro node hnode
    simp [hkinds node hnode]
  have hfilter : Node.filter ⟨.reserved, keyword, nodes⟩ .range = nodes := by
    rw [Node.filter, List.filter_eq_self]
    intro node hnode
    simp [hkinds node hnode]
  rw [ofNode, Node.has, hnone, hfilter, Node.mapM_eq_ok hranges]
  rfl

/-! ### Blocks -/

section Blocks

variable {keyword name : String} {members : List Node} {settings : List Setting}

theorem Node.name_cons {kind : Node.Kind} :
    Node.name ⟨kind, keyword, .leaf .identifier name :: members⟩ = .ok ⟨name⟩ := by
  simp [Node.name, Node.require, Node.find?]

theorem Oneof.ofNode_eq {fields : List Field}
    (hfields : (members.filter (·.kind == .field)).mapM Field.ofNode = .ok fields)
    (hsettings : (members.filter (·.kind == .option)).mapM Setting.ofNode = .ok settings) :
    Oneof.ofNode ⟨.oneof, keyword, .leaf .identifier name :: members⟩ =
      .ok { name := ⟨name⟩, fields, settings } := by
  rw [ofNode, Node.name_cons, Setting.allOf, Node.filter, Node.filter]
  simp [hfields, hsettings]

/-- A method: the name, the request, the response and the members of its body. -/
theorem Method.ofNode_eq {input output : String} {inputs outputs : List Node}
    (hsettings : (members.filter (·.kind == .option)).mapM Setting.ofNode = .ok settings) :
    Method.ofNode ⟨.method, keyword, [.leaf .identifier name, ⟨.methodInput, input, inputs⟩,
        ⟨.methodOutput, output, outputs⟩] ++ members⟩ =
      .ok { name := ⟨name⟩, settings,
            input := ⟨⟨input⟩, Node.has ⟨.methodInput, input, inputs⟩ .stream⟩,
            output := ⟨⟨output⟩, Node.has ⟨.methodOutput, output, outputs⟩ .stream⟩ } := by
  simp [ofNode, Node.name, Payload.ofNode, Node.require, Node.find?, Setting.allOf, Node.filter,
    hsettings]

theorem Enum.ofNode_eq {described : List EnumMember}
    (hmembers : Node.collect EnumMember.ofNode members = .ok described) :
    Enum.ofNode ⟨.enum, keyword, .leaf .identifier name :: members⟩ =
      .ok (.ofMembers ⟨name⟩ described) := by
  rw [ofNode, Node.name_cons, Described.ok_bind, Node.collect]
  simp [EnumMember.ofNode, hmembers]

theorem Service.ofNode_eq {described : List ServiceMember}
    (hmembers : Node.collect ServiceMember.ofNode members = .ok described) :
    Service.ofNode ⟨.service, keyword, .leaf .identifier name :: members⟩ =
      .ok (.ofMembers ⟨name⟩ described) := by
  rw [ofNode, Node.name_cons, Described.ok_bind, Node.collect]
  simp [ServiceMember.ofNode, hmembers]

/-- The member of a message that a node describes. -/
def MessageMember.ofNode (node : Node) : Described (Option MessageMember) :=
  match node.kind with
  | .identifier | .comment => .ok none
  | .field => do return some (.field (← Field.ofNode node))
  | .map => do return some (.map (← MapField.ofNode node))
  | .oneof => do return some (.oneof (← Oneof.ofNode node))
  | .message => do return some (.message (← Message.ofNode node))
  | .enum => do return some (.enum (← Enum.ofNode node))
  | .option => do return some (.setting (← Setting.ofNode node))
  | .reserved => do return some (.reserved (← Reserved.ofNode node))
  | found => .error (.unexpectedChild .message found)

/-- The members of a message are collected like those of the other blocks. -/
theorem MessageMember.ofNodes_eq (nodes : List Node) :
    MessageMember.ofNodes nodes = Node.collect MessageMember.ofNode nodes := by
  induction nodes with
  | nil => rw [ofNodes, Node.collect]
  | cons node rest ih =>
    rw [ofNodes, Node.collect, ih, ofNode]
    cases node.kind <;> simp

theorem Message.ofNode_eq {described : List MessageMember}
    (hmembers : Node.collect MessageMember.ofNode members = .ok described) :
    Message.ofNode ⟨.message, keyword, .leaf .identifier name :: members⟩ =
      .ok (.ofMembers ⟨name⟩ described) := by
  rw [ofNode, Node.name_cons, Described.ok_bind, MessageMember.ofNodes_eq, Node.collect]
  simp [MessageMember.ofNode, hmembers]

theorem File.ofNode_eq {described : List FileMember}
    (hmembers : Node.collect FileMember.ofNode members = .ok described) :
    File.ofNode ⟨.root, keyword, members⟩ = .ok (.ofMembers described) := by
  simp [ofNode, Node.isRoot, hmembers]

end Blocks

end ProtoSchema
