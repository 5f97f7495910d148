import ProtoSchema.Proofs.Language
import ProtoSchema.Proofs.Statements
import ProtoSchema.Schema.Parsed

/-!
# What is written is read back

The lines of a declaration can stand before any other members, and what they add to the members is
the tree of the declaration. Lines in a row and blocks keep this, so it goes from statements through
nested messages to whole files; the trees of a file describe the file.

* `Declares`: lines that add nodes to the members of a scope.
* `Declares.block`: a block, from what its body declares.
* `declares_message`: a message with all that is nested in it.
* `parse_render`: a well-formed file is read back from its text.
-/

namespace ProtoSchema

/-- Lines of legible words that add nodes to the members of a scope, whatever members follow. -/
structure Declares (scope : Scope) (lines : List (List String)) (nodes : List Node) : Prop where
  legible : ∀ line ∈ lines, ∀ word ∈ line, Legible word
  members : ∀ (tokens more : List Token) (others : List Node),
    tokens.map Token.shape = lines.flatMap lineShapes → Grammar.Members scope more others →
    Grammar.Members scope (tokens ++ more) (nodes ++ others)

/-- Tokens of a line are tokens of its words and a line break. -/
theorem exists_written {words : List String} {shapes : List (TokenKind × String)}
    {tokens : List Token} (h : tokens.map Token.shape = lineShapes words ++ shapes) :
    ∃ (first : List Token) (lineEnd : Token) (more : List Token),
      tokens = first ++ lineEnd :: more ∧ Written words first ∧ lineEnd.isLineEnd = true ∧
        more.map Token.shape = shapes := by
  rw [lineShapes, List.append_assoc, List.map_eq_append_iff] at h
  obtain ⟨first, rest, rfl, hfirst, hrest⟩ := h
  rw [List.singleton_append, List.map_eq_cons_iff] at hrest
  obtain ⟨lineEnd, more, rfl, hend, hmore⟩ := hrest
  refine ⟨first, lineEnd, more, rfl, hfirst, ?_, hmore⟩
  simp only [Token.shape, Prod.mk.injEq] at hend
  rw [Token.isLineEnd, hend.1]
  rfl

namespace Declares

variable {scope inner : Scope} {lines others : List (List String)} {nodes nodes' : List Node}

theorem nil : Declares scope [] [] where
  legible := by simp
  members tokens more nodes htokens hmore := by
    obtain rfl : tokens = [] := by simpa using htokens
    exact hmore

theorem append (h : Declares scope lines nodes) (hothers : Declares scope others nodes') :
    Declares scope (lines ++ others) (nodes ++ nodes') where
  legible := by
    rw [List.forall_mem_append]
    exact ⟨h.legible, hothers.legible⟩
  members tokens more last htokens hmore := by
    rw [List.flatMap_append, List.map_eq_append_iff] at htokens
    obtain ⟨first, second, rfl, hfirst, hsecond⟩ := htokens
    rw [List.append_assoc, List.append_assoc]
    exact h.members first _ _ hfirst (hothers.members second more last hsecond hmore)

/-- Declarations of one sort in a row. -/
theorem flatMap {α : Type} {lines : α → List (List String)} {node : α → Node} {items : List α}
    (h : ∀ item ∈ items, Declares scope (lines item) [node item]) :
    Declares scope (items.flatMap lines) (items.map node) := by
  induction items with
  | nil => exact .nil
  | cons item rest ih =>
    rw [List.forall_mem_cons] at h
    rw [List.flatMap_cons, List.map_cons]
    exact h.1.append (ih h.2)

theorem map {α : Type} {line : α → List String} {node : α → Node} {items : List α}
    (h : ∀ item ∈ items, Declares scope [line item] [node item]) :
    Declares scope (items.map line) (items.map node) := by
  rw [List.map_eq_flatMap]
  exact flatMap h

/-- A statement on a line. -/
theorem line {statement : Statement} {words : List String} {node : Node}
    (hscope : statement ∈ scope.members) (hlegible : ∀ word ∈ words, Legible word)
    (h : ∀ tokens, Written words tokens → Grammar.Line statement tokens node) :
    Declares scope [words] [node] where
  legible := by simpa using hlegible
  members tokens more others htokens hmore := by
    rw [List.flatMap_cons] at htokens
    obtain ⟨first, lineEnd, rest, rfl, hfirst, hend, hrest⟩ := exists_written htokens
    obtain rfl : rest = [] := by simpa using hrest
    rw [List.append_assoc]
    exact .line hscope (h first hfirst) (.blank hend hmore)

/-- A block: its first line opens it, its body declares the members, and a brace closes it. -/
theorem block {statement : Statement} {words : List String} {node : Node}
    (hscope : statement ∈ scope.members) (hlegible : ∀ word ∈ words, Legible word)
    (hopening : ∀ tokens, Written (words ++ ["\x7b"]) tokens →
      ∃ opener, Grammar.Opening statement tokens ⟨inner, opener, node⟩)
    (hbody : Declares inner lines nodes) :
    Declares scope (blockLines words lines) [node.append nodes] where
  legible := by
    have hopen : Legible "\x7b" := .mark .openBrace
    have hclose : Legible "\x7d" := .mark .closeBrace
    simp only [blockLines, List.forall_mem_cons, List.forall_mem_append, List.not_mem_nil,
      false_implies, implies_true, and_true]
    exact ⟨⟨hlegible, hopen⟩, hbody.legible, hclose⟩
  members tokens more others htokens hmore := by
    rw [blockLines, List.flatMap_cons] at htokens
    obtain ⟨first, lineEnd, rest, rfl, hfirst, hend, hrest⟩ := exists_written htokens
    rw [List.flatMap_append, List.map_eq_append_iff] at hrest
    obtain ⟨body, last, rfl, hbodyTokens, hlast⟩ := hrest
    rw [List.flatMap_cons] at hlast
    obtain ⟨closers, lastEnd, nothing, rfl, hclosers, hlastEnd, hnothing⟩ := exists_written hlast
    obtain rfl : nothing = [] := by simpa using hnothing
    obtain ⟨position, rfl⟩ : ∃ position, closers = [.ofLexeme position "\x7d"] := by
      simpa using hclosers
    obtain ⟨opener, hopener⟩ := hopening first hfirst
    -- the line break after the opening brace belongs to the body, the last one to what follows
    have hinside : Grammar.Members inner (lineEnd :: body) nodes := by
      refine .blank hend ?_
      simpa using hbody.members body [] [] hbodyTokens .nil
    have hcloser : Grammar.Spells [.mark .closeBrace] [.ofLexeme position "\x7d"] := by
      simp [Punctuation.text]
    have hafter := Grammar.Members.blank hlastEnd hmore
    simpa using Grammar.Members.block hscope hopener hinside hcloser .none hafter

end Declares

/-! ### Words of statements -/

section Legible

open Vocabulary

variable {settings : List Setting}

theorem legible_name {name : String} (h : printable.isName name = true) : Legible name :=
  .of_isReference (printable_isName h).2.reference

theorem legible_listed {close : Punctuation} {items : List (List String)}
    (h : ∀ item ∈ items, ∀ word ∈ item, Legible word) :
    ∀ word ∈ listed close items, Legible word := by
  have hcomma : Legible "," := .mark .comma
  induction items with
  | nil => simp [listed]
  | cons item rest ih =>
    rw [List.forall_mem_cons] at h
    cases rest with
    | nil =>
      rw [listed, List.forall_mem_append, List.forall_mem_singleton]
      exact ⟨h.1, .mark close⟩
    | cons next others =>
      rw [listed, List.forall_mem_append, List.forall_mem_cons]
      exact ⟨h.1, hcomma, ih h.2⟩

theorem legible_setting {setting : Setting} (h : setting.WellFormed .printable) :
    ∀ word ∈ setting.words, Legible word := by
  have hequals : Legible "=" := .mark .equals
  rw [Setting.words, List.forall_mem_append, List.forall_mem_cons, List.forall_mem_singleton]
  exact ⟨(printable_isOption h.name).legible, hequals, .quoted setting.value⟩

theorem legible_settings (h : ∀ setting ∈ settings, setting.WellFormed .printable) :
    ∀ word ∈ Setting.listWords settings, Legible word := by
  unfold Setting.listWords
  split
  · simp
  · rw [List.forall_mem_cons]
    refine ⟨.mark .openBracket, legible_listed ?_⟩
    rw [List.forall_mem_map]
    intro setting hsetting
    exact legible_setting (h setting hsetting)

theorem legible_numbered {name number : String} (hname : Legible name) (hnumber : Legible number)
    (h : ∀ setting ∈ settings, setting.WellFormed .printable) :
    ∀ word ∈ numberedWords name number settings, Legible word := by
  have hequals : Legible "=" := .mark .equals
  have hend : Legible ";" := .mark .semicolon
  simp only [numberedWords, List.forall_mem_cons, List.forall_mem_append, List.not_mem_nil,
    false_implies, implies_true, and_true]
  exact ⟨hname, hequals, hnumber, legible_settings h, hend⟩

theorem legible_version (version : Version) : ∀ word ∈ version.line, Legible word := by
  simp only [Version.line, List.forall_mem_cons, List.not_mem_nil, false_implies, implies_true,
    and_true]
  exact ⟨.fixed (by decide), .mark .equals, .quoted version.text, .mark .semicolon⟩

theorem legible_package {name : Name} (h : printable.isPackage name.text = true) :
    ∀ word ∈ packageLine name, Legible word := by
  simp only [packageLine, List.forall_mem_cons, List.not_mem_nil, false_implies, implies_true,
    and_true]
  exact ⟨.fixed (by decide), .of_isReference (printable_isPackage h).2.reference, .mark .semicolon⟩

theorem legible_import (file : Import) : ∀ word ∈ file.line, Legible word := by
  have hmodifier : ∀ modifier : ImportModifier, Legible modifier.text := by
    rintro (_ | _) <;> exact .fixed (by decide)
  simp only [Import.line, List.forall_mem_cons, List.forall_mem_append, List.forall_mem_map,
    List.not_mem_nil, false_implies, implies_true, and_true]
  exact ⟨.fixed (by decide), fun modifier _ => hmodifier modifier, .quoted file.path,
    .mark .semicolon⟩

theorem legible_type {type : FieldType} (h : type.WellFormed .printable) : Legible type.text :=
  .of_isReference (FieldType.referable_text h).2.1.reference

theorem legible_field {field : Field} (h : field.WellFormed .printable) :
    ∀ word ∈ field.line, Legible word := by
  rw [Field.line, List.forall_mem_append, List.forall_mem_cons]
  refine ⟨?_, legible_type h.type, legible_numbered (legible_name h.name) (.nat field.number)
    h.settings⟩
  have hrepeated : Legible "repeated" := .fixed (by decide)
  have hoptional : Legible "optional" := .fixed (by decide)
  unfold Field.labels
  cases field.repeated <;> cases field.optional <;> simp [hrepeated, hoptional]

theorem legible_map {map : MapField} (h : map.WellFormed .printable) :
    ∀ word ∈ map.line, Legible word := by
  have hkey : Legible map.key.text := .fixed (by cases map.key <;> decide)
  simp only [MapField.line, List.forall_mem_cons]
  exact ⟨.fixed (by decide), .mark .openAngle, hkey, .mark .comma, legible_type h.value,
    .mark .closeAngle, legible_numbered (legible_name h.name) (.nat map.number) h.settings⟩

theorem legible_constant {value : EnumValue} (h : value.WellFormed .printable) :
    ∀ word ∈ value.line, Legible word :=
  legible_numbered (.of_isReference (printable_isConstant h.name).2.1.reference) (.int value.number)
    h.settings

theorem legible_reserved (reserved : Reserved) : ∀ word ∈ reserved.line, Legible word := by
  have hkeyword : Legible "reserved" := .fixed (by decide)
  have hto : Legible "to" := .fixed (by decide)
  have hmax : Legible "max" := .fixed (by decide)
  cases reserved with
  | names entries =>
    rw [Reserved.line, List.forall_mem_cons]
    refine ⟨hkeyword, legible_listed ?_⟩
    rw [List.forall_mem_map]
    intro name _
    simpa using Legible.quoted name.text
  | ranges entries =>
    rw [Reserved.line, List.forall_mem_cons]
    refine ⟨hkeyword, legible_listed ?_⟩
    rw [List.forall_mem_map]
    intro range _
    unfold ReservedRange.words
    split
    · simp only [List.forall_mem_cons, List.not_mem_nil, false_implies, implies_true, and_true]
      exact ⟨.int range.start, hto, hmax⟩
    · split
      · rw [List.forall_mem_singleton]
        exact .int range.start
      · simp only [List.forall_mem_cons, List.not_mem_nil, false_implies, implies_true, and_true]
        exact ⟨.int range.start, hto, .int _⟩

theorem legible_payload {payload : Payload} (h : printable.isMessageType payload.name.text = true) :
    ∀ word ∈ payload.words, Legible word := by
  have hstream : Legible "stream" := .fixed (by decide)
  have hclose : Legible ")" := .mark .closeParen
  simp only [Payload.words, List.forall_mem_cons, List.forall_mem_append, List.not_mem_nil,
    false_implies, implies_true, and_true]
  refine ⟨.mark .openParen, ?_, .of_isReference (printable_isMessageType h).reference, hclose⟩
  cases payload.streaming <;> simp [hstream]

theorem legible_signature {method : Method} (h : method.WellFormed .printable) :
    ∀ word ∈ method.signature, Legible word := by
  simp only [Method.signature, List.forall_mem_cons, List.forall_mem_append]
  exact ⟨.fixed (by decide), legible_name h.name, legible_payload h.input, .fixed (by decide),
    legible_payload h.output⟩

end Legible

/-! ### Declarations -/

section Declarations

variable {scope : Scope}

theorem declares_settings {settings : List Setting} (hscope : .option ∈ scope.members)
    (h : ∀ setting ∈ settings, setting.WellFormed .printable) :
    Declares scope (settings.map Setting.line) (settings.map Setting.toNode) := by
  have hkeyword : Legible "option" := .fixed (by decide)
  have hend : Legible ";" := .mark .semicolon
  refine .map fun setting hsetting =>
    .line hscope ?_ fun _ => Grammar.line_option (h setting hsetting)
  rw [Setting.line, List.forall_mem_cons, List.forall_mem_append, List.forall_mem_singleton]
  exact ⟨hkeyword, legible_setting (h setting hsetting), hend⟩

theorem declares_reserved {entries : List Reserved} {domain : NumberDomain}
    (hscope : .reserved domain ∈ scope.members) (h : ∀ entry ∈ entries, entry.WellFormed domain) :
    Declares scope (entries.map Reserved.line) (entries.map Reserved.toNode) :=
  .map fun entry hentry =>
    .line hscope (legible_reserved entry) fun _ => Grammar.line_reserved (h entry hentry)

/-- A block that is written with a word and a name. -/
theorem Declares.named {statement : Statement} {word : String} {kind : Node.Kind} {inner : Scope}
    {name : Name} {lines : List (List String)} {nodes : List Node}
    (hscope : statement ∈ scope.members)
    (hblock : Grammar.namedBlock? statement = some (word, kind, inner)) (hword : Legible word)
    (hname : Vocabulary.printable.isName name.text = true) (hbody : Declares inner lines nodes) :
    Declares scope (blockLines [word, name.text] lines)
      [(blockNode kind word name).append nodes] := by
  refine .block hscope ?_ (fun _ => Grammar.opening_named hblock hname) hbody
  rw [List.forall_mem_cons, List.forall_mem_singleton]
  exact ⟨hword, legible_name hname⟩

theorem declares_oneof {oneof : Oneof} (h : oneof.WellFormed .printable) :
    Declares .message oneof.lines [oneof.toNode] := by
  have hscope : .oneof ∈ Scope.message.members := by decide
  have hfield : .field false ∈ Scope.oneof.members := by decide
  have hfields : Declares .oneof (oneof.fields.map Field.line) (oneof.fields.map Field.toNode) := by
    refine .map fun field hmem => .line hfield (legible_field (h.fields field hmem)) ?_
    intro tokens htokens
    have hlabels : field.labels = [] := by
      simp [Field.labels, h.unlabelled field hmem]
    exact Grammar.line_unlabelled (h.fields field hmem) hlabels htokens
  exact .named hscope rfl (.fixed (by decide)) h.name
    ((declares_settings (by decide) h.settings).append hfields)

theorem declares_enum {enum : Enum} (hscope : .enum ∈ scope.members)
    (h : enum.WellFormed .printable) : Declares scope enum.lines [enum.toNode] := by
  have hvalues : Declares .enum (enum.values.map EnumValue.line)
      (enum.values.map EnumValue.toNode) :=
    .map fun value hvalue => .line (by decide) (legible_constant (h.values value hvalue))
      fun _ => Grammar.line_constant (h.values value hvalue)
  exact .named hscope rfl (.fixed (by decide)) h.name
    ((declares_settings (by decide) h.settings).append
      (hvalues.append (declares_reserved (by decide) h.reserved)))

/-- A method without options stands on a line, any other one has a body. -/
theorem declares_method {method : Method} (h : method.WellFormed .printable) :
    Declares .service method.lines [method.toNode] := by
  have hscope : .method ∈ Scope.service.members := by decide
  unfold Method.lines
  split
  · rename_i hsettings
    rw [List.isEmpty_iff] at hsettings
    have hnode : method.toNode = method.signatureNode := by
      rw [Method.toNode, hsettings, List.map_nil]
      rfl
    rw [hnode]
    refine .line hscope ?_ fun _ => Grammar.line_method h
    rw [List.forall_mem_append, List.forall_mem_singleton]
    exact ⟨legible_signature h, .mark .semicolon⟩
  · exact .block hscope (legible_signature h) (fun _ => Grammar.opening_method h)
      (declares_settings (by decide) h.settings)

theorem declares_service {service : Service} (h : service.WellFormed .printable) :
    Declares .file service.lines [service.toNode] := by
  have hscope : .service ∈ Scope.file.members := by decide
  have hmethods := Declares.flatMap fun method hmethod => declares_method (h.methods method hmethod)
  exact .named hscope rfl (.fixed (by decide)) h.name
    ((declares_settings (by decide) h.settings).append hmethods)

/-- **A message declares its tree**, wherever messages may stand. The induction goes through the
messages that are nested in it. -/
theorem declares_message {message : Message} (h : message.WellFormed .printable)
    (hscope : .message ∈ scope.members) : Declares scope message.lines [message.toNode] := by
  induction h generalizing scope with
  | @intro message name fields oneofs settings maps enums messages reserved ih =>
    have hmessage : .message ∈ Scope.message.members := by decide
    have hfields : Declares .message (message.fields.map Field.line)
        (message.fields.map Field.toNode) :=
      .map fun field hmem => .line (by decide) (legible_field (fields field hmem))
        fun _ => Grammar.line_field (fields field hmem)
    have hmaps : Declares .message (message.maps.map MapField.line)
        (message.maps.map MapField.toNode) :=
      .map fun map hmem => .line (by decide) (legible_map (maps map hmem))
        fun _ => Grammar.line_map (maps map hmem)
    have honeofs := Declares.flatMap fun oneof hmem => declares_oneof (oneofs oneof hmem)
    have henums : Declares .message (message.enums.flatMap Enum.lines)
        (message.enums.map Enum.toNode) :=
      .flatMap fun enum hmem => declares_enum (by decide) (enums enum hmem)
    have hmessages := Declares.flatMap fun inner hmem => ih inner hmem hmessage
    have hbody := (declares_settings (by decide) settings).append (hfields.append (hmaps.append
      (honeofs.append (henums.append (hmessages.append
        (declares_reserved (by decide) reserved))))))
    rw [Message.lines_eq, Message.toNode_eq]
    exact .named hscope rfl (.fixed (by decide)) name hbody

end Declarations

/-- The lines of a file declare its trees. -/
theorem declares_file {file : File} (h : file.WellFormed .printable) :
    Declares .file file.lines file.toNodes := by
  have hversion : Declares .file (file.version.toList.map Version.line)
      (file.version.toList.map Version.toNode) :=
    .map fun version _ => .line (by decide) (legible_version version) fun _ => Grammar.line_version
  have hpackage : Declares .file (file.package.toList.map packageLine)
      (file.package.toList.map packageNode) := by
    refine .map fun name hmem => ?_
    have hname := h.package name (Option.mem_toList.1 hmem)
    exact .line (by decide) (legible_package hname) fun _ => Grammar.line_package hname
  have himports : Declares .file (file.imports.map Import.line) (file.imports.map Import.toNode) :=
    .map fun imported _ => .line (by decide) (legible_import imported) fun _ => Grammar.line_import
  have hmessages : Declares .file (Message.allLines file.messages)
      (file.messages.map Message.toNode) := by
    rw [Message.allLines_eq]
    exact .flatMap fun message hmem => declares_message (h.messages message hmem) (by decide)
  have henums : Declares .file (file.enums.flatMap Enum.lines) (file.enums.map Enum.toNode) :=
    .flatMap fun enum hmem => declares_enum (by decide) (h.enums enum hmem)
  have hservices : Declares .file (file.services.flatMap Service.lines)
      (file.services.map Service.toNode) :=
    .flatMap fun service hmem => declares_service (h.services service hmem)
  exact hversion.append (hpackage.append (himports.append
    ((declares_settings (by decide) h.settings).append
      (hmessages.append (henums.append hservices)))))

/-- **A well-formed file is read back from its text**, without a diagnostic and letter by letter. -/
theorem parse_render (file : File) (h : file.WellFormed .printable) :
    parse file.render = .ok ⟨file, []⟩ := by
  have hdeclares := declares_file h
  have htokens := shapes_tokenize hdeclares.legible
  -- the tokens are the members of a file and nothing else
  have hmembers := hdeclares.members _ [] [] htokens .nil
  rw [List.append_nil, List.append_nil] at hmembers
  have htree := Tree.ofSource_of_schema (.closed hmembers)
  rw [parse, File.render, htree, File.ofNode_toNodes h]
  rfl

/-- A file whose names look like other words and whose texts need every escape. -/
def thornyFile : File :=
  let setting : Setting := ⟨⟨"(a.b).c"⟩, "a \x22quoted\x22 \\ text\r\n// over lines"⟩
  let plain : Setting := ⟨⟨"java.package"⟩, ""⟩
  let field : Field := ⟨⟨"option"⟩, 536870911, .user ⟨"stream"⟩, true, false, [setting, plain]⟩
  let inner : Message :=
    ⟨⟨"message"⟩, [], [⟨⟨"oneof"⟩, [], []⟩], [], [], [], [], [.names [⟨"a;b"⟩, ⟨"to"⟩]]⟩
  let map : MapField := ⟨⟨"map"⟩, 7, .string, .user ⟨".pkg.Value"⟩, [setting]⟩
  let enum : Enum :=
    ⟨⟨"enum"⟩, [setting], [⟨⟨"LEAST"⟩, -2147483648, [setting]⟩, ⟨⟨"ZERO"⟩, 0, []⟩],
      [.ranges [⟨-5, .number (-1)⟩, ⟨3, .number 3⟩, ⟨5, .max⟩]]⟩
  let oneof : Oneof := ⟨⟨"max"⟩, [⟨⟨"rpc"⟩, 1, .scalar .int32, false, false, []⟩], [plain]⟩
  let outer : Message :=
    ⟨⟨"Outer"⟩, [field, ⟨⟨"reserved"⟩, 2, .scalar .bytes, false, true, []⟩], [oneof], [setting],
      [map], [enum], [inner, inner], [.ranges [⟨2, .number 2⟩, ⟨9, .number 11⟩, ⟨40, .max⟩]]⟩
  let method : Method := ⟨⟨"Call"⟩, ⟨⟨"stream"⟩, false⟩, ⟨⟨"stream"⟩, true⟩, []⟩
  let service : Service :=
    ⟨⟨"service"⟩, [method, ⟨⟨"Other"⟩, ⟨⟨"a.B"⟩, true⟩, ⟨⟨".c"⟩, false⟩, [setting]⟩], [setting]⟩
  ⟨some .proto3, some ⟨"a.b.c"⟩, [setting], [⟨some .weak, "x\x22y.proto"⟩, ⟨none, "z"⟩],
    [outer, inner], [⟨⟨"Empty"⟩, [], [], []⟩], [service]⟩

theorem parse_render_thornyFile :
    thornyFile.WellFormed .printable ∧ parse thornyFile.render = .ok ⟨thornyFile, []⟩ := by
  have h : thornyFile.WellFormed .printable := by decide
  exact ⟨h, parse_render thornyFile h⟩

end ProtoSchema
