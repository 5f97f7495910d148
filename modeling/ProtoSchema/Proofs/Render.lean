import ProtoSchema.Lexeme.Punctuation
import ProtoSchema.Proofs.WellFormed

/-!
# Writing schemas down

A schema is written as lines of words, one statement a line. Options come first in every block, then
the members in the order of their sorts. Words on a line have a space between them unless a mark
makes it unnecessary; texts stand between double quotes, and numbers are decimal.

* `quote`: a text as a quoted literal.
* `File.lines`: the lines of a file, each a list of words.
* `File.render`: the text of a file.
* `Vocabulary.printable`: the words that can be read back as names.
-/

namespace ProtoSchema

/-- How a character is written between double quotes. -/
def escape (c : Char) : List Char :=
  if c = '\\' then ['\\', '\\']
  else if c = '\x22' then ['\\', '\x22']
  else if c = '\n' then ['\\', 'n']
  else if c = '\r' then ['\\', 'r']
  else [c]

/-- A text between double quotes. -/
def quote (text : String) : String :=
  .ofList ('\x22' :: (text.toList.flatMap escape ++ ['\x22']))

/-! ### Words -/

/-- The words of the name of an option: an extension stands in parentheses. -/
def Lexeme.optionWords (name : String) : List String :=
  match extensionParts? name.toList with
  | none => [name]
  | some (extension, path) =>
    ["(", .ofList extension, ")"] ++ if path.isEmpty then [] else [.ofList path]

/-- Items with commas between them and a closing mark after the last. -/
def listed (close : Punctuation) : List (List String) → List String
  | [] => []
  | [item] => item ++ [close.text]
  | item :: next :: rest => item ++ "," :: listed close (next :: rest)

/-- `name = value`. -/
def Setting.words (setting : Setting) : List String :=
  Lexeme.optionWords setting.name.text ++ ["=", quote setting.value]

/-- Options in brackets, if there are any. -/
def Setting.listWords (settings : List Setting) : List String :=
  if settings.isEmpty then [] else "[" :: listed .closeBracket (settings.map words)

/-- `option name = value;` -/
def Setting.line (setting : Setting) : List String := "option" :: (setting.words ++ [";"])

/-- `name = number`, options and a semicolon. -/
def numberedWords (name number : String) (settings : List Setting) : List String :=
  name :: "=" :: number :: (Setting.listWords settings ++ [";"])

/-- The labels of a field. -/
def Field.labels (field : Field) : List String :=
  (if field.repeated then ["repeated"] else []) ++ if field.optional then ["optional"] else []

/-- `label type name = number;` -/
def Field.line (field : Field) : List String :=
  field.labels ++ field.type.text ::
    numberedWords field.name.text (toString field.number) field.settings

/-- `map<key, value> name = number;` -/
def MapField.line (map : MapField) : List String :=
  "map" :: "<" :: map.key.text :: "," :: map.value.text :: ">" ::
    numberedWords map.name.text (toString map.number) map.settings

/-- `NAME = number;` -/
def EnumValue.line (value : EnumValue) : List String :=
  numberedWords value.name.text (toString value.number) value.settings

/-- A range of numbers; a range of one number is written as the number. -/
def ReservedRange.words (range : ReservedRange) : List String :=
  match range.stop with
  | .max => [toString range.start, "to", "max"]
  | .number stop =>
    if stop = range.start then [toString range.start]
    else [toString range.start, "to", toString stop]

/-- `reserved` with names or with ranges. -/
def Reserved.line : Reserved → List String
  | names entries => "reserved" :: listed .semicolon (entries.map fun name => [quote name.text])
  | ranges entries => "reserved" :: listed .semicolon (entries.map ReservedRange.words)

/-- The type of a request or a response in parentheses. -/
def Payload.words (payload : Payload) : List String :=
  "(" :: ((if payload.streaming then ["stream"] else []) ++ [payload.name.text, ")"])

/-- `rpc Name (Request) returns (Response)` -/
def Method.signature (method : Method) : List String :=
  "rpc" :: method.name.text :: (method.input.words ++ "returns" :: method.output.words)

/-- `syntax = "version";` -/
def Version.line (version : Version) : List String := ["syntax", "=", quote version.text, ";"]

/-- `import "path";` with its modifier. -/
def Import.line (file : Import) : List String :=
  "import" :: (file.modifier.toList.map ImportModifier.text ++ [quote file.path, ";"])

/-- `package path;` -/
def packageLine (name : Name) : List String := ["package", name.text, ";"]

/-! ### Lines -/

/-- A statement with a body: its words with a brace, the lines of the body, and the other brace. -/
def blockLines (words : List String) (body : List (List String)) : List (List String) :=
  (words ++ ["\x7b"]) :: (body ++ [["\x7d"]])

/-- The lines of a method; options stand in a body. -/
def Method.lines (method : Method) : List (List String) :=
  if method.settings.isEmpty then [method.signature ++ [";"]]
  else blockLines method.signature (method.settings.map Setting.line)

/-- The lines of a service. -/
def Service.lines (service : Service) : List (List String) :=
  blockLines ["service", service.name.text]
    (service.settings.map Setting.line ++ service.methods.flatMap Method.lines)

/-- The lines of an enum. -/
def Enum.lines (enum : Enum) : List (List String) :=
  blockLines ["enum", enum.name.text]
    (enum.settings.map Setting.line ++ (enum.values.map EnumValue.line ++
      enum.reserved.map Reserved.line))

/-- The lines of a oneof. -/
def Oneof.lines (oneof : Oneof) : List (List String) :=
  blockLines ["oneof", oneof.name.text]
    (oneof.settings.map Setting.line ++ oneof.fields.map Field.line)

mutual

/-- The lines of a message. -/
def Message.lines : Message → List (List String)
  | ⟨name, fields, oneofs, settings, maps, enums, messages, reserved⟩ =>
    blockLines ["message", name.text]
      (settings.map Setting.line ++ (fields.map Field.line ++ (maps.map MapField.line ++
        (oneofs.flatMap Oneof.lines ++ (enums.flatMap Enum.lines ++
          (Message.allLines messages ++ reserved.map Reserved.line))))))

/-- The lines of several messages. -/
def Message.allLines : List Message → List (List String)
  | [] => []
  | message :: rest => message.lines ++ Message.allLines rest

end

theorem Message.allLines_eq (messages : List Message) :
    allLines messages = messages.flatMap lines := by
  induction messages with
  | nil => rw [allLines, List.flatMap_nil]
  | cons message rest ih => rw [allLines, List.flatMap_cons, ih]

/-- The lines of a message in terms of those of the messages inside it. -/
theorem Message.lines_eq (message : Message) :
    message.lines = blockLines ["message", message.name.text]
      (message.settings.map Setting.line ++ (message.fields.map Field.line ++
        (message.maps.map MapField.line ++ (message.oneofs.flatMap Oneof.lines ++
          (message.enums.flatMap Enum.lines ++ (message.messages.flatMap lines ++
            message.reserved.map Reserved.line)))))) := by
  cases message
  rw [lines, allLines_eq]

/-- The lines of a file. -/
def File.lines (file : File) : List (List String) :=
  file.version.toList.map Version.line ++ (file.package.toList.map packageLine ++
    (file.imports.map Import.line ++ (file.settings.map Setting.line ++
      (Message.allLines file.messages ++ (file.enums.flatMap Enum.lines ++
        file.services.flatMap Service.lines)))))

/-! ### Text -/

/-- Whether two words stand without a space between them. One of them is always a mark. -/
def tight (before after : String) : Bool :=
  ["(", "[", "<"].contains before || [")", "]", ">", "<", ",", ";"].contains after ||
    before == ")" && after.toList.head? == some '.'

/-- What stands between two words. -/
def gap (before after : String) : List Char := if tight before after then [] else [' ']

/-- The text of words after a word. -/
def textAfter (before : String) : List String → List Char
  | [] => []
  | word :: rest => gap before word ++ (word.toList ++ textAfter word rest)

/-- The text of a line with its line break. -/
def lineText : List String → List Char
  | [] => ['\n']
  | word :: rest => word.toList ++ (textAfter word rest ++ ['\n'])

/-- **The text of a file.** -/
def File.render (file : File) : String := .ofList (file.lines.flatMap lineText)

/-! ### Words that can be read back -/

/-- Two words are numbers wherever they stand, so they name nothing. -/
def isNumberWord (word : String) : Bool := ["inf", "nan"].contains word

/-- The words that can be read back as names. A type must not be mistaken for the start of another
statement, and neither must a constant. -/
def Vocabulary.printable : Vocabulary where
  isName text := Lexeme.isIdentifier text && !isNumberWord text
  isConstant text := Lexeme.isIdentifier text && !isNumberWord text &&
    !("reserved" :: Lexeme.keywords).contains text
  isPackage text := Lexeme.isPath text && !isNumberWord text
  isOption text := Lexeme.isOptionName text && (Lexeme.optionWords text).all (!isNumberWord ·)
  isUserType text := Lexeme.isTypeName text && (Scalar.ofText? text).isNone &&
    !isNumberWord text && !(["reserved", "repeated", "optional"].contains text)
  isMessageType text := Lexeme.isReference text && !isNumberWord text

end ProtoSchema
