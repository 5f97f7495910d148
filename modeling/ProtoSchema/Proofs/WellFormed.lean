import Mathlib.Tactic.MkIffOfInductiveProp
import ProtoSchema.Lexeme.TypeName
import ProtoSchema.Schema.File
import ProtoSchema.Schema.NumberDomain

/-!
# Well-formed schemas

What holds of every declaration of a schema, at any depth. The numbers must belong to their domains
and the labels must not contradict each other; which words may serve as names is left to a
vocabulary, since fewer words can be written down as names than can be read as names.

* `Vocabulary.accepted`: the words that reading takes for names.
* `File.WellFormed`: a file whose declarations are well formed over a vocabulary.
* `Message.WellFormed`: the same for a message and those inside it.
-/

namespace ProtoSchema

namespace Lexeme

/-- The reference in the parentheses that a text starts with, and what follows them. -/
def extensionParts? : List Char → Option (List Char × List Char)
  | '(' :: rest =>
    match rest.dropWhile (· != ')') with
    | _ :: path => some (rest.takeWhile (· != ')'), path)
    | [] => none
  | _ => none

/-- Whether a text names an option: a path, or a reference in parentheses and a path inside it. -/
def isOptionName (text : String) : Bool :=
  isPath text || (extensionParts? text.toList).any fun (name, path) =>
    isReference (.ofList name) && (path.isEmpty || isMemberPath (.ofList path))

end Lexeme

/-- Which words may stand in which role. -/
structure Vocabulary where
  /-- The name of a declaration, enum constants apart. -/
  isName : String → Bool
  /-- The name of an enum constant. -/
  isConstant : String → Bool
  /-- The name of a package. -/
  isPackage : String → Bool
  /-- The name of an option. -/
  isOption : String → Bool
  /-- The type of a field that is not built in. -/
  isUserType : String → Bool
  /-- The type of a request or a response. -/
  isMessageType : String → Bool

namespace Vocabulary

/-- The words that reading takes for names. -/
def accepted : Vocabulary where
  isName := Lexeme.isIdentifier
  isConstant text := Lexeme.isIdentifier text && !("reserved" :: Lexeme.keywords).contains text
  isPackage := Lexeme.isPath
  isOption := Lexeme.isOptionName
  isUserType text := Lexeme.isTypeName text && (Scalar.ofText? text).isNone
  isMessageType := Lexeme.isReference

end Vocabulary

variable (words : Vocabulary)

/-- An option has a name; its value is any text. -/
@[mk_iff]
structure Setting.WellFormed (setting : Setting) : Prop where
  name : words.isOption setting.name.text = true

/-- A type that is built in or has a name of its own. -/
def FieldType.WellFormed : FieldType → Prop
  | scalar _ => True
  | user name => words.isUserType name.text = true

/-- A field of a message. -/
@[mk_iff]
structure Field.WellFormed (field : Field) : Prop where
  name : words.isName field.name.text = true
  number : NumberDomain.fieldNumber.contains field.number = true
  type : field.type.WellFormed words
  labels : ¬ (field.repeated = true ∧ field.optional = true)
  settings : ∀ setting ∈ field.settings, setting.WellFormed words

/-- A map of a message. -/
@[mk_iff]
structure MapField.WellFormed (map : MapField) : Prop where
  name : words.isName map.name.text = true
  number : NumberDomain.fieldNumber.contains map.number = true
  key : map.key.isMapKey = true
  value : map.value.WellFormed words
  settings : ∀ setting ∈ map.settings, setting.WellFormed words

/-- A oneof, whose fields have no labels. -/
@[mk_iff]
structure Oneof.WellFormed (oneof : Oneof) : Prop where
  name : words.isName oneof.name.text = true
  fields : ∀ field ∈ oneof.fields, field.WellFormed words
  unlabelled : ∀ field ∈ oneof.fields, field.repeated = false ∧ field.optional = false
  settings : ∀ setting ∈ oneof.settings, setting.WellFormed words

/-- The end of a range of a domain that starts at a number. -/
def RangeEnd.WellFormed (domain : NumberDomain) (start : Int) : RangeEnd → Prop
  | number value => domain.contains value = true ∧ start ≤ value
  | max => True

/-- A range of numbers of a domain. -/
@[mk_iff]
structure ReservedRange.WellFormed (domain : NumberDomain) (range : ReservedRange) : Prop where
  start : domain.contains range.start = true
  stop : range.stop.WellFormed domain range.start

/-- A reserved statement reserves something. -/
def Reserved.WellFormed (domain : NumberDomain) : Reserved → Prop
  | names entries => entries ≠ []
  | ranges entries => entries ≠ [] ∧ ∀ range ∈ entries, range.WellFormed domain

/-- A constant of an enum. -/
@[mk_iff]
structure EnumValue.WellFormed (value : EnumValue) : Prop where
  name : words.isConstant value.name.text = true
  number : NumberDomain.enumValue.contains value.number = true
  settings : ∀ setting ∈ value.settings, setting.WellFormed words

/-- An enum and its members. -/
@[mk_iff]
structure Enum.WellFormed (enum : Enum) : Prop where
  name : words.isName enum.name.text = true
  values : ∀ value ∈ enum.values, value.WellFormed words
  settings : ∀ setting ∈ enum.settings, setting.WellFormed words
  reserved : ∀ reserved ∈ enum.reserved, reserved.WellFormed .enumValue

/-- A method of a service. -/
@[mk_iff]
structure Method.WellFormed (method : Method) : Prop where
  name : words.isName method.name.text = true
  input : words.isMessageType method.input.name.text = true
  output : words.isMessageType method.output.name.text = true
  settings : ∀ setting ∈ method.settings, setting.WellFormed words

/-- A service and its members. -/
@[mk_iff]
structure Service.WellFormed (service : Service) : Prop where
  name : words.isName service.name.text = true
  methods : ∀ method ∈ service.methods, method.WellFormed words
  settings : ∀ setting ∈ service.settings, setting.WellFormed words

/-- **A message and its members, at any depth.** -/
inductive Message.WellFormed : Message → Prop
  | intro {message : Message} (name : words.isName message.name.text = true)
      (fields : ∀ field ∈ message.fields, field.WellFormed words)
      (oneofs : ∀ oneof ∈ message.oneofs, oneof.WellFormed words)
      (settings : ∀ setting ∈ message.settings, setting.WellFormed words)
      (maps : ∀ map ∈ message.maps, map.WellFormed words)
      (enums : ∀ enum ∈ message.enums, enum.WellFormed words)
      (messages : ∀ inner ∈ message.messages, WellFormed inner)
      (reserved : ∀ reserved ∈ message.reserved, reserved.WellFormed .fieldNumber) :
      WellFormed message

/-- **A file and all that it declares.** -/
@[mk_iff]
structure File.WellFormed (file : File) : Prop where
  package : ∀ name ∈ file.package, words.isPackage name.text = true
  settings : ∀ setting ∈ file.settings, setting.WellFormed words
  messages : ∀ message ∈ file.messages, message.WellFormed words
  enums : ∀ enum ∈ file.enums, enum.WellFormed words
  services : ∀ service ∈ file.services, service.WellFormed words

/-! ### Members in the order of the text -/

/-- A member of an enum. -/
def EnumMember.WellFormed : EnumMember → Prop
  | .value declared => declared.WellFormed words
  | .setting declared => declared.WellFormed words
  | .reserved declared => declared.WellFormed .enumValue

/-- A member of a service. -/
def ServiceMember.WellFormed : ServiceMember → Prop
  | .method declared => declared.WellFormed words
  | .setting declared => declared.WellFormed words

/-- A member of a message. -/
def MessageMember.WellFormed : MessageMember → Prop
  | .field declared => declared.WellFormed words
  | .oneof declared => declared.WellFormed words
  | .setting declared => declared.WellFormed words
  | .map declared => declared.WellFormed words
  | .enum declared => declared.WellFormed words
  | .message declared => declared.WellFormed words
  | .reserved declared => declared.WellFormed .fieldNumber

/-- A statement of a file. -/
def FileMember.WellFormed : FileMember → Prop
  | .version _ | .imported _ => True
  | .package name => words.isPackage name.text = true
  | .setting declared => declared.WellFormed words
  | .message declared => declared.WellFormed words
  | .enum declared => declared.WellFormed words
  | .service declared => declared.WellFormed words

section OfMembers

variable {words} {name : Name}

/-- What is picked from members has what all members have. -/
theorem forall_mem_filterMap {α β : Type} {members : List α} {pick : α → Option β} {P : α → Prop}
    {Q : β → Prop} (h : ∀ member ∈ members, P member)
    (hpick : ∀ member value, pick member = some value → P member → Q value) :
    ∀ value ∈ members.filterMap pick, Q value := by
  intro value hvalue
  obtain ⟨member, hmember, hpicked⟩ := List.mem_filterMap.1 hvalue
  exact hpick member value hpicked (h member hmember)

theorem Enum.wellFormed_ofMembers {members : List EnumMember}
    (hname : words.isName name.text = true) (h : ∀ member ∈ members, member.WellFormed words) :
    (Enum.ofMembers name members).WellFormed words where
  name := hname
  values := forall_mem_filterMap h (by rintro (_ | _ | _) _ ⟨⟩ h; exact h)
  settings := forall_mem_filterMap h (by rintro (_ | _ | _) _ ⟨⟩ h; exact h)
  reserved := forall_mem_filterMap h (by rintro (_ | _ | _) _ ⟨⟩ h; exact h)

theorem Service.wellFormed_ofMembers {members : List ServiceMember}
    (hname : words.isName name.text = true) (h : ∀ member ∈ members, member.WellFormed words) :
    (Service.ofMembers name members).WellFormed words where
  name := hname
  methods := forall_mem_filterMap h (by rintro (_ | _) _ ⟨⟩ h; exact h)
  settings := forall_mem_filterMap h (by rintro (_ | _) _ ⟨⟩ h; exact h)

theorem Message.wellFormed_ofMembers {members : List MessageMember}
    (hname : words.isName name.text = true) (h : ∀ member ∈ members, member.WellFormed words) :
    (Message.ofMembers name members).WellFormed words := by
  refine .intro hname ?_ ?_ ?_ ?_ ?_ ?_ ?_
  all_goals exact forall_mem_filterMap h (by rintro (_ | _ | _ | _ | _ | _ | _) _ ⟨⟩ h; exact h)

theorem File.wellFormed_ofMembers {members : List FileMember}
    (h : ∀ member ∈ members, member.WellFormed words) :
    (File.ofMembers members).WellFormed words where
  package name hname :=
    forall_mem_filterMap h (by rintro (_ | _ | _ | _ | _ | _ | _) _ ⟨⟩ h; exact h) name
      (List.mem_of_getLast? hname)
  settings := forall_mem_filterMap h (by rintro (_ | _ | _ | _ | _ | _ | _) _ ⟨⟩ h; exact h)
  messages := forall_mem_filterMap h (by rintro (_ | _ | _ | _ | _ | _ | _) _ ⟨⟩ h; exact h)
  enums := forall_mem_filterMap h (by rintro (_ | _ | _ | _ | _ | _ | _) _ ⟨⟩ h; exact h)
  services := forall_mem_filterMap h (by rintro (_ | _ | _ | _ | _ | _ | _) _ ⟨⟩ h; exact h)

end OfMembers

/-! ### Well-formedness can be decided -/

section Decidable

variable {words}

instance (setting : Setting) : Decidable (setting.WellFormed words) :=
  decidable_of_iff _ (Setting.wellFormed_iff words setting).symm

instance (type : FieldType) : Decidable (type.WellFormed words) :=
  match type with
  | .scalar _ => inferInstanceAs (Decidable True)
  | .user name => inferInstanceAs (Decidable (words.isUserType name.text = true))

instance (field : Field) : Decidable (field.WellFormed words) :=
  decidable_of_iff _ (Field.wellFormed_iff words field).symm

instance (map : MapField) : Decidable (map.WellFormed words) :=
  decidable_of_iff _ (MapField.wellFormed_iff words map).symm

instance (oneof : Oneof) : Decidable (oneof.WellFormed words) :=
  decidable_of_iff _ (Oneof.wellFormed_iff words oneof).symm

instance (domain : NumberDomain) (start : Int) (stop : RangeEnd) :
    Decidable (stop.WellFormed domain start) :=
  match stop with
  | .number value => inferInstanceAs (Decidable (domain.contains value = true ∧ start ≤ value))
  | .max => inferInstanceAs (Decidable True)

instance (domain : NumberDomain) (range : ReservedRange) : Decidable (range.WellFormed domain) :=
  decidable_of_iff _ (ReservedRange.wellFormed_iff domain range).symm

instance (domain : NumberDomain) (reserved : Reserved) : Decidable (reserved.WellFormed domain) :=
  match reserved with
  | .names entries => inferInstanceAs (Decidable (entries ≠ []))
  | .ranges entries =>
    inferInstanceAs (Decidable (entries ≠ [] ∧ ∀ range ∈ entries, range.WellFormed domain))

instance (value : EnumValue) : Decidable (value.WellFormed words) :=
  decidable_of_iff _ (EnumValue.wellFormed_iff words value).symm

instance (enum : Enum) : Decidable (enum.WellFormed words) :=
  decidable_of_iff _ (Enum.wellFormed_iff words enum).symm

instance (method : Method) : Decidable (method.WellFormed words) :=
  decidable_of_iff _ (Method.wellFormed_iff words method).symm

instance (service : Service) : Decidable (service.WellFormed words) :=
  decidable_of_iff _ (Service.wellFormed_iff words service).symm

theorem Message.wellFormed_iff (message : Message) :
    message.WellFormed words ↔ words.isName message.name.text = true ∧
      (∀ field ∈ message.fields, field.WellFormed words) ∧
      (∀ oneof ∈ message.oneofs, oneof.WellFormed words) ∧
      (∀ setting ∈ message.settings, setting.WellFormed words) ∧
      (∀ map ∈ message.maps, map.WellFormed words) ∧
      (∀ enum ∈ message.enums, enum.WellFormed words) ∧
      (∀ inner ∈ message.messages, inner.WellFormed words) ∧
      ∀ reserved ∈ message.reserved, reserved.WellFormed .fieldNumber := by
  constructor
  · rintro ⟨name, fields, oneofs, settings, maps, enums, messages, reserved⟩
    exact ⟨name, fields, oneofs, settings, maps, enums, messages, reserved⟩
  · rintro ⟨name, fields, oneofs, settings, maps, enums, messages, reserved⟩
    exact .intro name fields oneofs settings maps enums messages reserved

mutual

/-- Decides whether a message is well formed. -/
def Message.decideWellFormed : (message : Message) → Decidable (message.WellFormed words)
  | ⟨name, fields, oneofs, settings, maps, enums, messages, reserved⟩ =>
    have : Decidable (∀ inner ∈ messages, inner.WellFormed words) :=
      Message.decideAllWellFormed messages
    decidable_of_iff _
      (wellFormed_iff ⟨name, fields, oneofs, settings, maps, enums, messages, reserved⟩).symm

/-- Decides whether several messages are well formed. -/
def Message.decideAllWellFormed :
    (messages : List Message) → Decidable (∀ message ∈ messages, message.WellFormed words)
  | [] => isTrue (by simp)
  | message :: rest =>
    have := Message.decideWellFormed message
    have := Message.decideAllWellFormed rest
    decidable_of_iff (message.WellFormed words ∧ ∀ message ∈ rest, message.WellFormed words)
      (by simp)

end

instance (message : Message) : Decidable (message.WellFormed words) :=
  Message.decideWellFormed message

instance (file : File) : Decidable (file.WellFormed words) :=
  decidable_of_iff _ (File.wellFormed_iff words file).symm

end Decidable

end ProtoSchema
