import ProtoSchema.Proofs.Grammar
import ProtoSchema.Proofs.Lowering
import ProtoSchema.Proofs.WellFormed
import ProtoSchema.Proofs.Words

/-!
# What lines of the grammar describe

Each line of the grammar describes a well-formed declaration. The tests that a line passes as a row
of tokens are those that its node needs: a number that is in its domain as a token has the same
value as a text.

* `Grammar.Fits`: a node that may stand in a scope describes a well-formed member of it.
* `Grammar.Line.fits`: every line of a scope does.
-/

namespace ProtoSchema

namespace Lexeme

theorem takeWhile_append_paren {name path : List Char} (h : ')' ∉ name) :
    (name ++ ')' :: path).takeWhile (· != ')') = name ∧
      (name ++ ')' :: path).dropWhile (· != ')') = ')' :: path := by
  have hall : ∀ c ∈ name, (c != ')') = true := by
    intro c hc
    rw [bne_iff_ne]
    rintro rfl
    exact h hc
  rw [List.takeWhile_append_of_pos hall, List.dropWhile_append_of_pos hall]
  simp

/-- An extension in parentheses names an option, and so does a path inside it. -/
theorem isOptionName_extension {name path : String} (hname : isReference name = true)
    (hpath : path = "" ∨ isMemberPath path = true) :
    isOptionName ("(" ++ name ++ ")" ++ path) = true := by
  have hparen : ')' ∉ name.toList := by
    intro hmem
    have hpart := List.all_eq_true.1 (chars_of_isReference hname).2 _ hmem
    exact absurd hpart (by decide)
  obtain ⟨htake, hdrop⟩ := @takeWhile_append_paren _ path.toList hparen
  -- a reference has no parenthesis, so the first one that closes is the one behind it
  have htext : ("(" ++ name ++ ")" ++ path).toList =
      '(' :: (name.toList ++ ')' :: path.toList) := by
    simp
  rw [isOptionName, htext, extensionParts?, hdrop, htake, Bool.or_eq_true]
  refine .inr ?_
  rcases hpath with rfl | hpath
  · simp [hname]
  · simp [hname, hpath]

end Lexeme

/-- A node describes a value that has a property. -/
def Node.Gives {α : Type} (node : Node) (read : Node → Described α) (P : α → Prop) : Prop :=
  ∃ value, read node = .ok value ∧ P value

namespace Grammar

variable {words : List Token} {node : Node} {nodes : List Node}

theorem OptionName.isOptionName {text : String} (h : OptionName words text) :
    Lexeme.isOptionName text = true := by
  cases h with
  | path h =>
    simp only [spells_cons, spells_nil, and_true] at h
    rw [Lexeme.isOptionName, (Bool.and_eq_true_iff.1 h).2, Bool.true_or]
  | extension h =>
    simp only [spells_cons, spells_nil, and_true] at h
    simpa using Lexeme.isOptionName_extension (Bool.and_eq_true_iff.1 h.2.1).2 (.inl rfl)
  | member h hpath =>
    simp only [spells_cons, spells_nil, and_true] at h
    exact Lexeme.isOptionName_extension (Bool.and_eq_true_iff.1 h.2.1).2 (.inr hpath)

theorem Assignment.exists_setting {multiline : Bool} (h : Assignment multiline words node) :
    ∃ setting : Setting, node = setting.toNode ∧ setting.WellFormed .accepted := by
  cases h with
  | @intro _ _ _ _ _ value text _ hname _ _ _ _ =>
    exact ⟨⟨⟨text⟩, (Lexeme.literal? value.lexeme).getD value.lexeme⟩, rfl, ⟨hname.isOptionName⟩⟩

/-- The values of a list come from items among its words. -/
theorem Separated.forall_mem {α : Type} {item : List Token → α → Prop} {close : Punctuation}
    {values : List α} {P : α → Prop} (h : Separated item close words values)
    (hitem : ∀ {part value}, part ⊆ words → item part value → P value) :
    ∀ value ∈ values, P value := by
  induction h with
  | last h _ => simpa using hitem (List.subset_append_left _ _) h
  | more h _ _ ih =>
    refine List.forall_mem_cons.2 ⟨hitem (List.subset_append_left _ _) h, ?_⟩
    refine ih fun hpart => hitem (List.Subset.trans hpart ?_)
    exact List.Subset.trans (List.subset_cons_self _ _) (List.subset_append_right _ _)

theorem Separated.forall {α : Type} {item : List Token → α → Prop} {close : Punctuation}
    {values : List α} {P : α → Prop} (h : Separated item close words values)
    (hitem : ∀ {words value}, item words value → P value) :
    values ≠ [] ∧ ∀ value ∈ values, P value :=
  ⟨by cases h <;> simp, h.forall_mem fun _ => hitem⟩

/-- Nodes that each belong to a value of some sort are the nodes of a list of values. -/
theorem exists_map {α : Type} {toNode : α → Node} {P : α → Prop}
    (h : ∀ node ∈ nodes, ∃ value, node = toNode value ∧ P value) :
    ∃ values : List α, nodes = values.map toNode ∧ ∀ value ∈ values, P value := by
  induction nodes with
  | nil => exact ⟨[], rfl, by simp⟩
  | cons node rest ih =>
    rw [List.forall_mem_cons] at h
    obtain ⟨⟨value, rfl, hvalue⟩, hrest⟩ := h
    obtain ⟨values, rfl, hvalues⟩ := ih hrest
    exact ⟨value :: values, rfl, List.forall_mem_cons.2 ⟨hvalue, hvalues⟩⟩

theorem OptionList.exists_settings (h : OptionList words nodes) :
    ∃ settings : List Setting, nodes = settings.map Setting.toNode ∧
      ∀ setting ∈ settings, setting.WellFormed .accepted := by
  cases h with
  | absent => exact ⟨[], rfl, by simp⟩
  | listed _ h =>
    refine exists_map (h.forall ?_).2
    intro words node hlisted
    cases hlisted with
    | intro h _ => exact h.exists_setting

/-- A token that is the number of a field has a natural number of the domain as its value. -/
theorem exists_fieldNumber {token : Token} (h : Terminal.fieldNumber.admits token = true) :
    ∃ value : Nat, Lexeme.integer? token.lexeme = some (value : Int) ∧
      NumberDomain.fieldNumber.contains value = true := by
  rw [Terminal.admits] at h
  cases hinteger : Lexeme.integer? token.lexeme with
  | none => simp [hinteger] at h
  | some value =>
    rw [hinteger, Option.any_some] at h
    have hpos : 0 ≤ value := by
      have hlow := ((NumberDomain.contains_iff _ _).1 h).1
      simp only [NumberDomain.low] at hlow
      omega
    obtain ⟨number, rfl⟩ := Int.eq_ofNat_of_zero_le hpos
    exact ⟨number, rfl, h⟩

theorem FieldTail.exists_parts (h : FieldTail words nodes) :
    ∃ (name number : String) (value : Nat) (settings : List Setting),
      nodes = [.leaf .identifier name, .leaf .fieldNumber number] ++ settings.map Setting.toNode ∧
      Lexeme.isIdentifier name = true ∧ Lexeme.integer? number = some (value : Int) ∧
      NumberDomain.fieldNumber.contains value = true ∧
      ∀ setting ∈ settings, setting.WellFormed .accepted := by
  cases h with
  | intro h hoptions _ =>
    simp only [spells_cons, spells_nil, and_true] at h
    obtain ⟨settings, rfl, hsettings⟩ := hoptions.exists_settings
    obtain ⟨value, hvalue, hdomain⟩ := exists_fieldNumber h.2.2
    exact ⟨_, _, value, settings, rfl, (Bool.and_eq_true_iff.1 h.1).2, hvalue, hdomain, hsettings⟩

/-- The type of a field is built in or has a name that is neither a keyword nor a built-in type. -/
theorem wellFormed_ofText {type : String} (h : Lexeme.isTypeName type = true) :
    (FieldType.ofText type).WellFormed .accepted := by
  unfold FieldType.ofText
  split
  · trivial
  · rename_i hnone
    change (Lexeme.isTypeName type && (Scalar.ofText? type).isNone) = true
    rw [h, hnone]
    rfl

theorem gives_field {labels : List Node} {repeated optional : Bool} {type : String}
    (hlabels : Labels labels repeated optional) (htype : Lexeme.isTypeName type = true)
    (htail : FieldTail words nodes) :
    Node.Gives ⟨.field, "", labels ++ .leaf (Parse.typeKind type) type :: nodes⟩ Field.ofNode
      fun field => field.WellFormed .accepted ∧ field.repeated = repeated ∧
        field.optional = optional := by
  obtain ⟨name, number, value, settings, rfl, hname, hnumber, hdomain, hsettings⟩ :=
    htail.exists_parts
  refine ⟨{ name := ⟨name⟩, number := value, type := .ofText type, repeated, optional, settings },
    ?_, ⟨hname, hdomain, wellFormed_ofText htype, ?_, hsettings⟩, rfl, rfl⟩
  · simpa using Field.ofNode_eq hlabels hnumber hdomain settings
  · cases hlabels <;> simp

theorem gives_map (h : Line .map words node) :
    node.kind = .map ∧ node.Gives MapField.ofNode (·.WellFormed .accepted) := by
  cases h with
  | map h htail =>
    simp only [spells_cons, spells_nil, and_true] at h
    obtain ⟨-, -, hkey, -, htype, -⟩ := h
    obtain ⟨name, number, value, settings, rfl, hname, hnumber, hdomain, hsettings⟩ :=
      htail.exists_parts
    obtain ⟨scalar, hscalar⟩ := Option.isSome_iff_exists.1 hkey
    refine ⟨rfl, _, MapField.ofNode_eq hscalar hnumber hdomain settings,
      ⟨hname, hdomain, ?_, wellFormed_ofText (Bool.and_eq_true_iff.1 htype).2, hsettings⟩⟩
    exact (Option.filter_eq_some_iff.1 hscalar).2

theorem ReservedName.exists_name (h : ReservedName words node) :
    ∃ name : Name, node = .leaf .stringLiteral name.text ∧ True := by
  cases h with
  | @intro literal _ => exact ⟨⟨literal.literalText⟩, rfl, trivial⟩

theorem integer?_of_admits {token : Token} (h : Terminal.reservedNumber.admits token = true) :
    Lexeme.integer? token.lexeme = some token.integerValue := by
  obtain ⟨value, hvalue⟩ := Option.isSome_iff_exists.1 h
  rw [Token.integerValue, hvalue]
  rfl

theorem ReservedRange.gives {domain : NumberDomain} (h : ReservedRange domain words node) :
    node.kind = .range ∧
      node.Gives ProtoSchema.ReservedRange.ofNode (·.WellFormed domain) := by
  cases h with
  | single h hfirst =>
    simp only [spells_cons, spells_nil, and_true] at h
    exact ⟨rfl, _, ReservedRange.ofNode_single (integer?_of_admits h),
      ⟨hfirst, hfirst, Int.le_refl _⟩⟩
  | between h hfirst hstop hle =>
    simp only [spells_cons, spells_nil, and_true] at h
    exact ⟨rfl, _, ReservedRange.ofNode_between (integer?_of_admits h.1) (integer?_of_admits h.2.2),
      ⟨hfirst, hstop, hle⟩⟩
  | toMax h hfirst =>
    simp only [spells_cons, spells_nil, and_true, admits_word] at h
    rw [h.2.2]
    exact ⟨rfl, _, ReservedRange.ofNode_max (integer?_of_admits h.1), ⟨hfirst, trivial⟩⟩

/-- Nodes that each describe something describe a list together. -/
theorem exists_forall₂ {α : Type} {read : Node → Described α} {P : α → Prop}
    (h : ∀ node ∈ nodes, node.Gives read P) :
    ∃ values, List.Forall₂ (fun node value => read node = .ok value) nodes values ∧
      ∀ value ∈ values, P value := by
  induction nodes with
  | nil => exact ⟨[], .nil, by simp⟩
  | cons node rest ih =>
    rw [List.forall_mem_cons] at h
    obtain ⟨⟨value, hread, hvalue⟩, hrest⟩ := h
    obtain ⟨values, hvalues, hall⟩ := ih hrest
    exact ⟨value :: values, .cons hread hvalues, List.forall_mem_cons.2 ⟨hvalue, hall⟩⟩

theorem gives_reserved {domain : NumberDomain} (h : Line (.reserved domain) words node) :
    node.kind = .reserved ∧ node.Gives Reserved.ofNode (·.WellFormed domain) := by
  cases h with
  | reservedNames _ h =>
    obtain ⟨hne, hnames⟩ := h.forall ReservedName.exists_name
    obtain ⟨names, rfl, -⟩ := exists_map hnames
    have hnames : names ≠ [] := by simpa using hne
    exact ⟨rfl, _, Reserved.ofNode_names hnames, hnames⟩
  | reservedRanges _ _ h =>
    obtain ⟨hne, hranges⟩ := h.forall ReservedRange.gives
    obtain ⟨ranges, hdescribed, hall⟩ := exists_forall₂ fun node hnode => (hranges node hnode).2
    refine ⟨rfl, _, Reserved.ofNode_ranges (fun node hnode => (hranges node hnode).1) hdescribed,
      ?_, hall⟩
    rintro rfl
    exact hne (List.forall₂_nil_right_iff.1 hdescribed)

theorem gives_constant (h : Line .constant words node) :
    node.kind = .enumConstant ∧ node.Gives EnumValue.ofNode (·.WellFormed .accepted) := by
  cases h with
  | @constant name _ number _ _ _ h hbars hnumber hoptions _ =>
    simp only [spells_cons, spells_nil, and_true] at h
    obtain ⟨settings, rfl, hsettings⟩ := hoptions.exists_settings
    refine ⟨rfl, _, EnumValue.ofNode_eq (integer?_of_admits h.2.2) hnumber settings,
      ⟨?_, hnumber, hsettings⟩⟩
    change (Lexeme.isIdentifier name.lexeme &&
      !("reserved" :: Lexeme.keywords).contains name.lexeme) = true
    simp only [(Bool.and_eq_true_iff.1 h.1).2, Bool.true_and, Bool.not_eq_true']
    simpa using hbars

theorem gives_setting {multiline : Bool} (h : Assignment multiline words node) :
    node.kind = .option ∧ node.Gives Setting.ofNode (·.WellFormed .accepted) := by
  obtain ⟨setting, rfl, hsetting⟩ := h.exists_setting
  exact ⟨rfl, setting, rfl, hsetting⟩

theorem gives_version (h : Line .version words node) :
    node.kind = .version ∧ node.Gives Version.ofNode fun _ => True := by
  cases h with
  | @version _ _ literal _ _ hversion =>
    obtain ⟨version, hfound⟩ := Option.isSome_iff_exists.1 hversion
    refine ⟨rfl, version, ?_, trivial⟩
    simp [Version.ofNode, Node.require, Node.find?, Node.readValue, hfound]

theorem gives_import (h : Line .importFile words node) :
    node.kind = .importFile ∧ node.Gives Import.ofNode fun _ => True := by
  cases h with
  | @plainImport _ path _ _ =>
    refine ⟨rfl, ⟨none, path.literalText⟩, ?_, trivial⟩
    simp [Import.ofNode, ImportModifier.ofNode, Node.require, Node.find?]
  | @qualifiedImport _ modifier path _ _ hmodifier _ =>
    obtain ⟨found, hfound⟩ := Option.isSome_iff_exists.1 hmodifier
    refine ⟨rfl, ⟨some found, path.literalText⟩, ?_, trivial⟩
    simp [Import.ofNode, ImportModifier.ofNode, Node.require, Node.find?, Node.readValue, hfound]

theorem gives_package (h : Line .package words node) :
    node.kind = .package ∧ node.Gives Node.name (Lexeme.isPath ·.text = true) := by
  cases h with
  | package h =>
    simp only [spells_cons, spells_nil, and_true] at h
    exact ⟨rfl, _, Node.name_cons, (Bool.and_eq_true_iff.1 h.2.1).2⟩

/-! ### Members of a scope -/

/-- **A node that may stand in a scope**: it describes a well-formed member there. Comments describe
nothing, and the body of a method or a oneof is read by picking the kinds that count. -/
def Fits (scope : Scope) (node : Node) : Prop :=
  match scope with
  | .file => node.Gives FileMember.ofNode fun found => ∀ member ∈ found, member.WellFormed .accepted
  | .message =>
    node.Gives MessageMember.ofNode fun found => ∀ member ∈ found, member.WellFormed .accepted
  | .enum => node.Gives EnumMember.ofNode fun found => ∀ member ∈ found, member.WellFormed .accepted
  | .service =>
    node.Gives ServiceMember.ofNode fun found => ∀ member ∈ found, member.WellFormed .accepted
  | .oneof =>
    (node.kind = .field → node.Gives Field.ofNode fun field =>
      field.WellFormed .accepted ∧ field.repeated = false ∧ field.optional = false) ∧
    (node.kind = .option → node.Gives Setting.ofNode (·.WellFormed .accepted))
  | .method => node.kind = .option → node.Gives Setting.ofNode (·.WellFormed .accepted)

variable {scope : Scope}

theorem fits_comment (h : node.kind = .comment) : Fits scope node := by
  cases scope with
  | file => exact ⟨none, by simp [FileMember.ofNode, h], by simp⟩
  | message => exact ⟨none, by simp [MessageMember.ofNode, h], by simp⟩
  | enum => exact ⟨none, by simp [EnumMember.ofNode, h], by simp⟩
  | service => exact ⟨none, by simp [ServiceMember.ofNode, h], by simp⟩
  | oneof | method => simp [Fits, h]

/-- A node that describes a declaration describes a member, where members may be such. -/
theorem gives_member {α β : Type} {read : Node → Described α}
    {readMember : Node → Described (Option β)} {member : α → β} {P : α → Prop} {Q : β → Prop}
    (h : node.Gives read P) (hmember : ∀ value, P value → Q (member value))
    (heq : readMember node = do return some (member (← read node))) :
    node.Gives readMember fun found => ∀ value ∈ found, Q value := by
  obtain ⟨value, hread, hvalue⟩ := h
  refine ⟨some (member value), by rw [heq, hread]; rfl, ?_⟩
  rintro _ ⟨⟩
  exact hmember value hvalue

theorem fits_setting
    (h : node.kind = .option ∧ node.Gives Setting.ofNode (·.WellFormed .accepted)) :
    Fits scope node := by
  obtain ⟨hkind, h⟩ := h
  cases scope with
  | file => exact gives_member h (fun _ => id) (by rw [FileMember.ofNode, hkind])
  | message => exact gives_member h (fun _ => id) (by rw [MessageMember.ofNode, hkind])
  | enum => exact gives_member h (fun _ => id) (by rw [EnumMember.ofNode, hkind])
  | service => exact gives_member h (fun _ => id) (by rw [ServiceMember.ofNode, hkind])
  | oneof => exact ⟨by simp [hkind], fun _ => h⟩
  | method => exact fun _ => h

theorem LineComment.fits (h : LineComment words node) : Fits scope node := by
  cases h with
  | intro _ _ => exact fits_comment rfl

/-! ### Blocks -/

/-- The kind of the node of a block. -/
def blockKind : Scope → Node.Kind
  | .file => .root
  | .message => .message
  | .oneof => .oneof
  | .enum => .enum
  | .service => .service
  | .method => .method

/-- What stands in a block before its members: a name, and for a method its types too. -/
inductive Head : Scope → List Node → Prop
  | file : Head .file []
  | named {scope : Scope} {name : String} (hscope : scope ∈ [.message, .oneof, .enum, .service])
      (hname : Lexeme.isIdentifier name = true) : Head scope [.leaf .identifier name]
  | method {name input output : String} {inputs outputs : List Node}
      (hname : Lexeme.isIdentifier name = true) (hinput : Lexeme.isReference input = true)
      (houtput : Lexeme.isReference output = true) :
      Head .method [.leaf .identifier name, ⟨.methodInput, input, inputs⟩,
        ⟨.methodOutput, output, outputs⟩]

/-- **A block whose members fit.** It need not be complete: members may be added. -/
inductive Block : Scope → Node → Prop
  | intro {scope : Scope} {value : String} {heads members : List Node} (hhead : Head scope heads)
      (hmembers : ∀ member ∈ members, Fits scope member) :
      Block scope ⟨blockKind scope, value, heads ++ members⟩

theorem Block.append (h : Block scope node) (hnodes : ∀ member ∈ nodes, Fits scope member) :
    Block scope (node.append nodes) := by
  cases h with
  | intro hhead hmembers =>
    rw [Node.append, List.append_assoc]
    exact .intro hhead (List.forall_mem_append.2 ⟨hmembers, hnodes⟩)

/-- Members that fit are collected. -/
theorem exists_collect {β : Type} {readMember : Node → Described (Option β)} {Q : β → Prop}
    (h : ∀ node ∈ nodes, node.Gives readMember fun found => ∀ value ∈ found, Q value) :
    ∃ values, Node.collect readMember nodes = .ok values ∧ ∀ value ∈ values, Q value := by
  obtain ⟨founds, hfounds, hall⟩ := exists_forall₂ h
  refine ⟨_, Node.collect_eq_ok hfounds, ?_⟩
  intro value hvalue
  obtain ⟨found, hfound, hmem⟩ := List.mem_flatMap.1 hvalue
  exact hall found hfound value (by simpa using hmem)

/-- The children of one kind are read one after the other. -/
theorem exists_mapM {α : Type} {read : Node → Described α} {P : α → Prop} {kind : Node.Kind}
    (h : ∀ node ∈ nodes, node.kind = kind → node.Gives read P) :
    ∃ values, (nodes.filter (·.kind == kind)).mapM read = .ok values ∧
      ∀ value ∈ values, P value := by
  obtain ⟨values, hvalues, hall⟩ := @exists_forall₂ (nodes.filter (·.kind == kind)) α read P (by
    intro node hnode
    rw [List.mem_filter, beq_iff_eq] at hnode
    exact h node hnode.1 hnode.2)
  exact ⟨values, Node.mapM_eq_ok hvalues, hall⟩

theorem Block.message (h : Block .message node) :
    node.kind = .message ∧ node.Gives Message.ofNode (·.WellFormed .accepted) := by
  cases h with
  | intro hhead hmembers =>
    cases hhead with
    | named _ hname =>
      obtain ⟨described, hdescribed, hall⟩ := exists_collect hmembers
      exact ⟨rfl, _, Message.ofNode_eq hdescribed, Message.wellFormed_ofMembers hname hall⟩

theorem Block.enum (h : Block .enum node) :
    node.kind = .enum ∧ node.Gives Enum.ofNode (·.WellFormed .accepted) := by
  cases h with
  | intro hhead hmembers =>
    cases hhead with
    | named _ hname =>
      obtain ⟨described, hdescribed, hall⟩ := exists_collect hmembers
      exact ⟨rfl, _, Enum.ofNode_eq hdescribed, Enum.wellFormed_ofMembers hname hall⟩

theorem Block.service (h : Block .service node) :
    node.kind = .service ∧ node.Gives Service.ofNode (·.WellFormed .accepted) := by
  cases h with
  | intro hhead hmembers =>
    cases hhead with
    | named _ hname =>
      obtain ⟨described, hdescribed, hall⟩ := exists_collect hmembers
      exact ⟨rfl, _, Service.ofNode_eq hdescribed, Service.wellFormed_ofMembers hname hall⟩

theorem Block.oneof (h : Block .oneof node) :
    node.kind = .oneof ∧ node.Gives Oneof.ofNode (·.WellFormed .accepted) := by
  cases h with
  | intro hhead hmembers =>
    cases hhead with
    | named _ hname =>
      obtain ⟨fields, hfields, hall⟩ :=
        exists_mapM fun member hmember => (hmembers member hmember).1
      obtain ⟨settings, hsettings, hall'⟩ :=
        exists_mapM fun member hmember => (hmembers member hmember).2
      exact ⟨rfl, _, Oneof.ofNode_eq hfields hsettings,
        ⟨hname, fun field hfield => (hall field hfield).1,
          fun field hfield => (hall field hfield).2, hall'⟩⟩

theorem Block.method (h : Block .method node) :
    node.kind = .method ∧ node.Gives Method.ofNode (·.WellFormed .accepted) := by
  cases h with
  | intro hhead hmembers =>
    cases hhead with
    | named hscope _ => exact absurd hscope (by decide)
    | method hname hinput houtput =>
      obtain ⟨settings, hsettings, hall⟩ := exists_mapM hmembers
      exact ⟨rfl, _, Method.ofNode_eq hsettings, ⟨hname, hinput, houtput, hall⟩⟩

theorem Block.file (h : Block .file node) :
    node.Gives File.ofNode (·.WellFormed .accepted) := by
  cases h with
  | intro hhead hmembers =>
    cases hhead with
    | file =>
      obtain ⟨described, hdescribed, hall⟩ := exists_collect hmembers
      exact ⟨_, File.ofNode_eq hdescribed, File.wellFormed_ofMembers hall⟩
    | named hscope _ => exact absurd hscope (by decide)

/-- The blocks that may stand in a scope. -/
def blocksOf : Scope → List Scope
  | .file => [.message, .enum, .service]
  | .message => [.message, .enum, .oneof]
  | .service => [.method]
  | _ => []

/-- **A block fits where it may stand.** -/
theorem Block.fits {inner : Scope} (h : Block inner node) (hinner : inner ∈ blocksOf scope) :
    Fits scope node := by
  cases scope with
  | file =>
    simp only [blocksOf, List.mem_cons, List.not_mem_nil, or_false] at hinner
    rcases hinner with rfl | rfl | rfl
    · exact gives_member h.message.2 (fun _ => id) (by rw [FileMember.ofNode, h.message.1])
    · exact gives_member h.enum.2 (fun _ => id) (by rw [FileMember.ofNode, h.enum.1])
    · exact gives_member h.service.2 (fun _ => id) (by rw [FileMember.ofNode, h.service.1])
  | message =>
    simp only [blocksOf, List.mem_cons, List.not_mem_nil, or_false] at hinner
    rcases hinner with rfl | rfl | rfl
    · exact gives_member h.message.2 (fun _ => id) (by rw [MessageMember.ofNode, h.message.1])
    · exact gives_member h.enum.2 (fun _ => id) (by rw [MessageMember.ofNode, h.enum.1])
    · exact gives_member h.oneof.2 (fun _ => id) (by rw [MessageMember.ofNode, h.oneof.1])
  | service =>
    simp only [blocksOf, List.mem_cons, List.not_mem_nil, or_false] at hinner
    subst hinner
    exact gives_member h.method.2 (fun _ => id) (by rw [ServiceMember.ofNode, h.method.1])
  | oneof | enum | method => cases hinner

/-! ### Statements -/

theorem Payload.exists_type {kind : Node.Kind} (h : Payload kind words node) :
    ∃ type children, node = ⟨kind, type, children⟩ ∧ Lexeme.isReference type = true := by
  cases h with
  | single h =>
    simp only [spells_cons, spells_nil, and_true] at h
    exact ⟨_, _, rfl, (Bool.and_eq_true_iff.1 h.2.1).2⟩
  | stream h =>
    simp only [spells_cons, spells_nil, and_true] at h
    exact ⟨_, _, rfl, (Bool.and_eq_true_iff.1 h.2.2.1).2⟩

theorem Signature.block (h : Signature words node) : Block .method node := by
  cases h with
  | @intro keyword _ _ _ _ _ _ h hinput _ houtput =>
    simp only [spells_cons, spells_nil, and_true] at h
    obtain ⟨input, inputs, rfl, hin⟩ := hinput.exists_type
    obtain ⟨output, outputs, rfl, hout⟩ := houtput.exists_type
    exact @Block.intro .method keyword.lexeme _ []
      (.method (Bool.and_eq_true_iff.1 h.2).2 hin hout) (by simp)

theorem fits_message_field {P : Field → Prop}
    (h : node.kind = .field ∧
      node.Gives Field.ofNode fun field => field.WellFormed .accepted ∧ P field) :
    Fits .message node := by
  obtain ⟨hkind, field, hread, hfield, -⟩ := h
  refine ⟨some (.field field), by simp [MessageMember.ofNode, hkind, hread], ?_⟩
  rintro _ ⟨⟩
  exact hfield

theorem fits_field {labelled : Bool} (h : Line (.field labelled) words node)
    (hscope : .field labelled ∈ scope.members) : Fits scope node := by
  have hplace : scope = .message ∧ labelled = true ∨ scope = .oneof ∧ labelled = false := by
    cases scope <;> cases labelled <;> revert hscope <;> decide
  cases h with
  | field htype _ htail =>
    simp only [spells_cons, spells_nil, and_true] at htype
    have hfield := gives_field .none (Bool.and_eq_true_iff.1 htype).2 htail
    rcases hplace with ⟨rfl, -⟩ | ⟨rfl, -⟩
    · exact fits_message_field ⟨rfl, hfield⟩
    · exact ⟨fun _ => hfield, by simp⟩
  | @labelledField label _ kind _ _ hlabel htype htail =>
    simp only [spells_cons, spells_nil, and_true] at htype
    have hlabels : ∃ repeated optional, Labels [.leaf kind label.lexeme] repeated optional := by
      have hkind : kind = .repeated ∨ kind = .optional := by
        obtain ⟨before, after, hentries, -⟩ := List.lookup_eq_some_iff.1 hlabel
        have hmem : (label.lexeme, kind) ∈
            [("repeated", Node.Kind.repeated), ("optional", .optional)] := by
          rw [hentries]
          simp
        have hall : ∀ entry ∈ [("repeated", Node.Kind.repeated), ("optional", .optional)],
            entry.2 = .repeated ∨ entry.2 = .optional := by decide
        exact hall _ hmem
      rcases hkind with rfl | rfl
      · exact ⟨_, _, .repeated⟩
      · exact ⟨_, _, .optional⟩
    obtain ⟨repeated, optional, hlabels⟩ := hlabels
    have hfield := gives_field hlabels (Bool.and_eq_true_iff.1 htype).2 htail
    -- the fields of a oneof have no labels
    rcases hplace with ⟨rfl, -⟩ | ⟨-, hfalse⟩
    · exact fits_message_field ⟨rfl, hfield⟩
    · cases hfalse

/-- **A line fits in its scope.** -/
theorem Line.fits {statement : Statement} (h : Line statement words node)
    (hscope : statement ∈ scope.members) : Fits scope node := by
  cases statement with
  | version =>
    obtain rfl : scope = .file := by cases scope <;> first | rfl | exact absurd hscope (by decide)
    obtain ⟨hkind, hgives⟩ := gives_version h
    exact gives_member hgives (fun _ => id) (by rw [FileMember.ofNode, hkind])
  | importFile =>
    obtain rfl : scope = .file := by cases scope <;> first | rfl | exact absurd hscope (by decide)
    obtain ⟨hkind, hgives⟩ := gives_import h
    exact gives_member hgives (fun _ => id) (by rw [FileMember.ofNode, hkind])
  | package =>
    obtain rfl : scope = .file := by cases scope <;> first | rfl | exact absurd hscope (by decide)
    obtain ⟨hkind, hgives⟩ := gives_package h
    exact gives_member hgives (fun _ => id) (by rw [FileMember.ofNode, hkind])
  | option =>
    cases h with
    | option _ h _ => exact fits_setting (gives_setting h)
  | field labelled => exact fits_field h hscope
  | map =>
    obtain rfl : scope = .message := by
      cases scope <;> first | rfl | exact absurd hscope (by decide)
    obtain ⟨hkind, hgives⟩ := gives_map h
    exact gives_member hgives (fun _ => id) (by rw [MessageMember.ofNode, hkind])
  | constant =>
    obtain rfl : scope = .enum := by cases scope <;> first | rfl | exact absurd hscope (by decide)
    obtain ⟨hkind, hgives⟩ := gives_constant h
    exact gives_member hgives (fun _ => id) (by rw [EnumMember.ofNode, hkind])
  | reserved domain =>
    obtain ⟨hkind, hgives⟩ := gives_reserved h
    have hplace :
        scope = .message ∧ domain = .fieldNumber ∨ scope = .enum ∧ domain = .enumValue := by
      cases scope <;> cases domain <;> revert hscope <;> decide
    rcases hplace with ⟨rfl, rfl⟩ | ⟨rfl, rfl⟩
    · exact gives_member hgives (fun _ => id) (by rw [MessageMember.ofNode, hkind])
    · exact gives_member hgives (fun _ => id) (by rw [EnumMember.ofNode, hkind])
  | method =>
    obtain rfl : scope = .service := by
      cases scope <;> first | rfl | exact absurd hscope (by decide)
    cases h with
    | method h _ => exact h.block.fits (by decide)
  | comment mark =>
    refine fits_comment ?_
    cases h <;> rfl
  | message | oneof | enum | service => cases h

/-- **A block is opened where it may stand**, and has no members yet. -/
theorem Opening.block {statement : Statement} {frame : Frame} (h : Opening statement words frame)
    (hscope : statement ∈ scope.members) :
    frame.scope ∈ blocksOf scope ∧ Block frame.scope frame.node := by
  cases h with
  | @named _ word kind inner keyword name opener hblock h =>
    simp only [spells_cons, spells_nil, and_true] at h
    have hname := (Bool.and_eq_true_iff.1 h.2.1).2
    have hplace : inner ∈ blocksOf scope ∧ inner ∈ [.message, .oneof, .enum, .service] ∧
        kind = blockKind inner := by
      cases statement <;> cases hblock <;> cases scope <;> revert hscope <;> decide
    obtain ⟨hinner, hnamed, rfl⟩ := hplace
    exact ⟨hinner, @Block.intro inner keyword.lexeme _ [] (.named hnamed hname) (by simp)⟩
  | method h _ =>
    have hplace : Scope.method ∈ blocksOf scope := by
      cases scope <;> revert hscope <;> decide
    exact ⟨hplace, h.block⟩

end Grammar

end ProtoSchema
