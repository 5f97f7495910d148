import Mathlib.Data.List.Forall2
import ProtoSchema.Statement.Block

/-!
# The grammar of schema files

The language of schema files as productions over tokens, each with the node that it stands for. The
classes of tokens are the terminals of the statements; what a reader does with them plays no part
here. Line breaks are tokens, so a production says where a line may break: between members, inside
block comments and, in a list of options in brackets, between the parts of an option.

* `Grammar.Line`: a statement that has no body.
* `Grammar.Opening`: a statement with a body, up to its opening brace.
* `Grammar.Members`: the statements of a file or of a body in a row, bodies nested to any depth.
* `Grammar.Schema`: a whole file.
-/

namespace ProtoSchema

/-- The statements that may stand in a scope, comments on a line of their own apart. -/
def Scope.members : Scope → List Statement
  | file =>
    [.version, .importFile, .package, .option, .message, .enum, .service, .comment .block]
  | message =>
    [.field true, .map, .message, .enum, .reserved .fieldNumber, .oneof, .option, .comment .block]
  | oneof => [.field false, .option, .comment .block]
  | enum => [.constant, .option, .reserved .enumValue, .comment .block]
  | service => [.method, .option, .comment .block]
  | method => [.option, .comment .block]

namespace Grammar

variable {α : Type}

/-- The tokens belong to the terminals, one to one. -/
def Spells (terminals : List Terminal) (tokens : List Token) : Prop :=
  List.Forall₂ (fun terminal token => terminal.admits token = true) terminals tokens

@[simp] theorem spells_nil : Spells [] [] := .nil

@[simp] theorem spells_cons {terminal : Terminal} {terminals : List Terminal} {token : Token}
    {tokens : List Token} :
    Spells (terminal :: terminals) (token :: tokens) ↔
      terminal.admits token = true ∧ Spells terminals tokens :=
  List.forall₂_cons

@[simp] theorem admits_mark {sign : Punctuation} {token : Token} :
    (Terminal.mark sign).admits token = token.isMark sign := rfl

@[simp] theorem admits_eitherMark {first second : Punctuation} {token : Token} :
    (Terminal.eitherMark first second).admits token =
      (token.isMark first || token.isMark second) := rfl

@[simp] theorem admits_word {word : String} {token : Token} :
    (Terminal.word word).admits token = true ↔ token.lexeme = word :=
  beq_iff_eq

/-- Line breaks and nothing else. -/
def Breaks (words : List Token) : Prop := ∀ token ∈ words, token.isLineEnd = true

/-- Line breaks where they are allowed, and nothing elsewhere. -/
def Layout (multiline : Bool) (words : List Token) : Prop :=
  if multiline then Breaks words else words = []

/-- At least one item, with commas between them, and a closing mark after the last. -/
inductive Separated (item : List Token → α → Prop) (close : Punctuation) :
    List Token → List α → Prop
  | last {words : List Token} {value : α} {mark : Token} (h : item words value)
      (hmark : Spells [.mark close] [mark]) : Separated item close (words ++ [mark]) [value]
  | more {words rest : List Token} {value : α} {values : List α} {comma : Token}
      (h : item words value) (hcomma : Spells [.mark .comma] [comma])
      (hrest : Separated item close rest values) :
      Separated item close (words ++ comma :: rest) (value :: values)

/-- The name of an option: a path, or an extension in parentheses and a path inside it. No line
breaks inside a name, also where lines may break around it. -/
inductive OptionName : List Token → String → Prop
  | path {name : Token} (h : Spells [.optionName] [name]) : OptionName [name] name.lexeme
  | extension {opener name closer : Token}
      (h : Spells [.mark .openParen, .extensionName, .mark .closeParen] [opener, name, closer]) :
      OptionName [opener, name, closer] ("(" ++ name.lexeme ++ ")")
  | member {opener name closer path : Token}
      (h : Spells [.mark .openParen, .extensionName, .mark .closeParen] [opener, name, closer])
      (hpath : Lexeme.isMemberPath path.lexeme = true) :
      OptionName [opener, name, closer, path] ("(" ++ name.lexeme ++ ")" ++ path.lexeme)

/-- The node of an option. -/
def optionNode (name : String) (value : Token) : Node :=
  ⟨.option, "option",
    [.leaf .identifier name,
     .leaf .optionValue ((Lexeme.literal? value.lexeme).getD value.lexeme)]⟩

/-- `name = value`. Where lines may break, they do so before the name, on either side of the equals
sign, and nowhere else. -/
inductive Assignment (multiline : Bool) : List Token → Node → Prop
  | intro {before name between after : List Token} {equals value : Token} {text : String}
      (hbefore : Layout multiline before) (hname : OptionName name text)
      (hbetween : Layout multiline between) (hequals : Spells [.mark .equals] [equals])
      (hafter : Layout multiline after) (hvalue : Spells [.optionValue] [value]) :
      Assignment multiline (before ++ (name ++ (between ++ equals :: (after ++ [value]))))
        (optionNode text value)

/-- An option of a list in brackets. Lines may break around its name, its equals sign and its
value, the last break being the one before the comma or the closing bracket. -/
inductive ListedOption : List Token → Node → Prop
  | intro {words after : List Token} {node : Node} (h : Assignment true words node)
      (hafter : Breaks after) : ListedOption (words ++ after) node

/-- Options in brackets, or nothing. -/
inductive OptionList : List Token → List Node → Prop
  | absent : OptionList [] []
  | listed {opener : Token} {words : List Token} {nodes : List Node}
      (hopener : Spells [.mark .openBracket] [opener])
      (h : Separated ListedOption .closeBracket words nodes) : OptionList (opener :: words) nodes

/-- A reserved name. -/
inductive ReservedName : List Token → Node → Prop
  | intro {literal : Token} (h : Spells [.reservedName] [literal]) :
      ReservedName [literal] (.leaf .stringLiteral literal.literalText)

/-- A reserved number of a domain, or a range that is not empty. -/
inductive ReservedRange (domain : NumberDomain) : List Token → Node → Prop
  | single {first : Token} (h : Spells [.reservedNumber] [first])
      (hfirst : domain.contains first.integerValue = true) :
      ReservedRange domain [first] ⟨.range, first.lexeme, []⟩
  | between {first word stop : Token}
      (h : Spells [.reservedNumber, .word "to", .reservedNumber] [first, word, stop])
      (hfirst : domain.contains first.integerValue = true)
      (hstop : domain.contains stop.integerValue = true)
      (hle : first.integerValue ≤ stop.integerValue) :
      ReservedRange domain [first, word, stop]
        ⟨.range, first.lexeme, [.leaf .rangeEnd stop.lexeme]⟩
  | toMax {first word stop : Token}
      (h : Spells [.reservedNumber, .word "to", .word "max"] [first, word, stop])
      (hfirst : domain.contains first.integerValue = true) :
      ReservedRange domain [first, word, stop]
        ⟨.range, first.lexeme, [.leaf .rangeEnd stop.lexeme]⟩

/-- `name = number`, options and a semicolon. -/
inductive FieldTail : List Token → List Node → Prop
  | intro {name equals number semicolon : Token} {options : List Token} {nodes : List Node}
      (h : Spells [.fieldName, .mark .equals, .fieldNumber] [name, equals, number])
      (hoptions : OptionList options nodes) (hend : Spells [.mark .semicolon] [semicolon]) :
      FieldTail (name :: equals :: number :: (options ++ [semicolon]))
        (.leaf .identifier name.lexeme :: .leaf .fieldNumber number.lexeme :: nodes)

/-- The type of a request or a response in parentheses, or a stream of them. -/
inductive Payload (kind : Node.Kind) : List Token → Node → Prop
  | single {opener type closer : Token}
      (h : Spells [.mark .openParen, .messageType, .mark .closeParen] [opener, type, closer]) :
      Payload kind [opener, type, closer] ⟨kind, type.lexeme, []⟩
  | stream {opener word type closer : Token}
      (h : Spells [.mark .openParen, .word "stream", .messageType, .mark .closeParen]
        [opener, word, type, closer]) :
      Payload kind [opener, word, type, closer] ⟨kind, type.lexeme, [.leaf .stream word.lexeme]⟩

/-- `rpc Name (Request) returns (Response)`. -/
inductive Signature : List Token → Node → Prop
  | intro {keyword name returns : Token} {input output : List Token} {request response : Node}
      (h : Spells [.word "rpc", .methodName] [keyword, name])
      (hinput : Payload .methodInput input request) (hreturns : Spells [.word "returns"] [returns])
      (houtput : Payload .methodOutput output response) :
      Signature (keyword :: name :: (input ++ returns :: output))
        ⟨.method, keyword.lexeme, [.leaf .identifier name.lexeme, request, response]⟩

/-- The words that do not name the type of a field without a label: each of them starts another
statement, or a field with a label, where the field stands. -/
def typeBars : Bool → List String
  | true => ["reserved", "repeated", "optional"]
  | false => ["repeated", "optional"]

/-- A comment that runs to the end of its line, without the line break. -/
inductive LineComment : List Token → Node → Prop
  | intro {opener : Token} {others : List Token}
      (hopener : Lexeme.opensLineComment opener.lexeme = true)
      (hothers : ∀ token ∈ others, token.isLineEnd = false) :
      LineComment (opener :: others)
        (Parse.commentNode .line (Parse.lineCommentText opener others))

/-- A statement that has no body and ends with a mark of its own. -/
inductive Line : Statement → List Token → Node → Prop
  | version {keyword equals literal semicolon : Token}
      (h : Spells [.word "syntax", .mark .equals, .versionText, .mark .semicolon]
        [keyword, equals, literal, semicolon])
      (hversion : (Version.ofText? literal.literalText).isSome = true) :
      Line .version [keyword, equals, literal, semicolon]
        ⟨.version, keyword.lexeme, [.leaf .stringLiteral literal.literalText]⟩
  | plainImport {keyword path semicolon : Token}
      (h : Spells [.word "import", .importPath, .mark .semicolon] [keyword, path, semicolon]) :
      Line .importFile [keyword, path, semicolon]
        ⟨.importFile, keyword.lexeme, [.leaf .stringLiteral path.literalText]⟩
  | qualifiedImport {keyword modifier path semicolon : Token}
      (h : Spells [.word "import"] [keyword])
      (hmodifier : (ImportModifier.ofText? modifier.lexeme).isSome = true)
      (hpath : Spells [.importPath, .mark .semicolon] [path, semicolon]) :
      Line .importFile [keyword, modifier, path, semicolon]
        ⟨.importFile, keyword.lexeme,
          [.leaf .importModifier modifier.lexeme, .leaf .stringLiteral path.literalText]⟩
  | package {keyword name semicolon : Token}
      (h : Spells [.word "package", .packageName, .mark .semicolon] [keyword, name, semicolon]) :
      Line .package [keyword, name, semicolon]
        ⟨.package, keyword.lexeme, [.leaf .identifier name.lexeme]⟩
  | option {keyword semicolon : Token} {words : List Token} {node : Node}
      (hkeyword : Spells [.word "option"] [keyword]) (h : Assignment false words node)
      (hend : Spells [.mark .semicolon] [semicolon]) :
      Line .option (keyword :: (words ++ [semicolon])) node
  | field {labelled : Bool} {type : Token} {tail : List Token} {nodes : List Node}
      (htype : Spells [.fieldType] [type]) (hbars : type.lexeme ∉ typeBars labelled)
      (htail : FieldTail tail nodes) :
      Line (.field labelled) (type :: tail)
        ⟨.field, "", .leaf (Parse.typeKind type.lexeme) type.lexeme :: nodes⟩
  | labelledField {label type : Token} {kind : Node.Kind} {tail : List Token} {nodes : List Node}
      (hlabel : Parse.labelKind? label.lexeme = some kind) (htype : Spells [.fieldType] [type])
      (htail : FieldTail tail nodes) :
      Line (.field true) (label :: type :: tail)
        ⟨.field, "", .leaf kind label.lexeme ::
          .leaf (Parse.typeKind type.lexeme) type.lexeme :: nodes⟩
  | map {keyword opener key comma value closer : Token} {tail : List Token} {nodes : List Node}
      (h : Spells [.word "map", .mark .openAngle, .mapKeyType, .mark .comma, .mapValueType,
        .mark .closeAngle] [keyword, opener, key, comma, value, closer])
      (htail : FieldTail tail nodes) :
      Line .map (keyword :: opener :: key :: comma :: value :: closer :: tail)
        ⟨.map, keyword.lexeme, .leaf .mapKey key.lexeme :: .leaf .mapValue value.lexeme :: nodes⟩
  | constant {name equals number semicolon : Token} {options : List Token} {nodes : List Node}
      (h : Spells [.constantName, .mark .equals, .enumValue] [name, equals, number])
      (hbars : name.lexeme ∉ "reserved" :: Lexeme.keywords)
      (hnumber : NumberDomain.enumValue.contains number.integerValue = true)
      (hoptions : OptionList options nodes) (hend : Spells [.mark .semicolon] [semicolon]) :
      Line .constant (name :: equals :: number :: (options ++ [semicolon]))
        ⟨.enumConstant, "",
          .leaf .identifier name.lexeme :: .leaf .fieldNumber number.lexeme :: nodes⟩
  | reservedNames {domain : NumberDomain} {keyword : Token} {words : List Token}
      {nodes : List Node} (hkeyword : Spells [.word "reserved"] [keyword])
      (h : Separated ReservedName .semicolon words nodes) :
      Line (.reserved domain) (keyword :: words) ⟨.reserved, keyword.lexeme, nodes⟩
  | reservedRanges {domain : NumberDomain} {keyword first : Token} {words : List Token}
      {nodes : List Node} (hkeyword : Spells [.word "reserved"] [keyword])
      (hfirst : first.isNumber = true)
      (h : Separated (ReservedRange domain) .semicolon (first :: words) nodes) :
      Line (.reserved domain) (keyword :: first :: words) ⟨.reserved, keyword.lexeme, nodes⟩
  | method {words : List Token} {node : Node} {semicolon : Token} (h : Signature words node)
      (hend : Spells [.mark .semicolon] [semicolon]) : Line .method (words ++ [semicolon]) node
  | shortComment {opener : Token} (hopener : Lexeme.opensBlockComment opener.lexeme = true)
      (hclosed : Lexeme.closesBlockComment opener.lexeme = true) :
      Line (.comment .block) [opener]
        (Parse.commentNode .block (Parse.blockCommentText opener []))
  | blockComment {opener closer : Token} {others : List Token}
      (hopener : Lexeme.opensBlockComment opener.lexeme = true)
      (hopen : Lexeme.closesBlockComment opener.lexeme = false)
      (hothers : ∀ token ∈ others, Parse.closesComment token = false)
      (hcloser : Parse.closesComment closer = true) :
      Line (.comment .block) (opener :: (others ++ [closer]))
        (Parse.commentNode .block (Parse.blockCommentText opener (others ++ [closer])))

/-- The word, the node and the scope of a statement with a name and a body. -/
def namedBlock? : Statement → Option (String × Node.Kind × Scope)
  | .message => some ("message", .message, .message)
  | .oneof => some ("oneof", .oneof, .oneof)
  | .enum => some ("enum", .enum, .enum)
  | .service => some ("service", .service, .service)
  | _ => none

/-- A statement up to the brace that opens its body. -/
inductive Opening : Statement → List Token → Frame → Prop
  | named {statement : Statement} {word : String} {kind : Node.Kind} {scope : Scope}
      {keyword name opener : Token} (hblock : namedBlock? statement = some (word, kind, scope))
      (h : Spells [.word word, .blockName word, .mark .openBrace] [keyword, name, opener]) :
      Opening statement [keyword, name, opener]
        ⟨scope, opener, ⟨kind, keyword.lexeme, [.leaf .identifier name.lexeme]⟩⟩
  | method {words : List Token} {node : Node} {opener : Token} (h : Signature words node)
      (hopener : Spells [.mark .openBrace] [opener]) :
      Opening .method (words ++ [opener]) ⟨.method, opener, node⟩

/-- What may stand directly after the closing brace of a body: a semicolon after a method's. -/
inductive Trailer : Scope → List Token → Prop
  | none {scope : Scope} : Trailer scope []
  | semicolon {token : Token} (h : Spells [.mark .semicolon] [token]) : Trailer .method [token]

/-- Statements of a scope in a row, with line breaks between them. A comment to the end of the line
needs the line break. -/
inductive Members : Scope → List Token → List Node → Prop
  | nil {scope : Scope} : Members scope [] []
  | blank {scope : Scope} {token : Token} {more : List Token} {nodes : List Node}
      (htoken : token.isLineEnd = true) (hmore : Members scope more nodes) :
      Members scope (token :: more) nodes
  | comment {scope : Scope} {words more : List Token} {token : Token} {node : Node}
      {nodes : List Node} (h : LineComment words node) (htoken : token.isLineEnd = true)
      (hmore : Members scope (token :: more) nodes) :
      Members scope (words ++ token :: more) (node :: nodes)
  | line {scope : Scope} {statement : Statement} {words more : List Token} {node : Node}
      {nodes : List Node} (hscope : statement ∈ scope.members) (h : Line statement words node)
      (hmore : Members scope more nodes) : Members scope (words ++ more) (node :: nodes)
  | block {scope : Scope} {statement : Statement} {opening body trailer more : List Token}
      {frame : Frame} {closer : Token} {members nodes : List Node}
      (hscope : statement ∈ scope.members) (hopening : Opening statement opening frame)
      (hbody : Members frame.scope body members) (hcloser : Spells [.mark .closeBrace] [closer])
      (htrailer : Trailer frame.scope trailer) (hmore : Members scope more nodes) :
      Members scope (opening ++ (body ++ closer :: (trailer ++ more)))
        (frame.node.append members :: nodes)

/-- A whole file; its last line may be a comment without a line break. -/
inductive Schema : List Token → List Node → Prop
  | closed {words : List Token} {nodes : List Node} (h : Members .file words nodes) :
      Schema words nodes
  | commented {words last : List Token} {node : Node} {nodes : List Node}
      (h : Members .file words nodes) (hlast : LineComment last node) :
      Schema (words ++ last) (nodes ++ [node])

end Grammar

end ProtoSchema
