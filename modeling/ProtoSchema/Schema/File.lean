import ProtoSchema.Schema.Message
import ProtoSchema.Schema.Service

/-!
# Schema files

A file declares messages, enums and services under a package, with the version of the language it is
written in, the files it imports and its options.

* `File.ofMembers`: a file from its statements; of several versions or packages the last counts.
* `File.message?`, `File.enum?`, `File.service?`, `File.setting?`: look-ups by name.
* `File.messageAt?`: a message by the names on the way to it.
-/

namespace ProtoSchema

/-- All that a schema file declares. -/
structure File where
  version : Option Version
  package : Option Name
  settings : List Setting
  imports : List Import
  messages : List Message
  enums : List Enum
  services : List Service
deriving DecidableEq, Repr

/-- A statement of a file. -/
inductive FileMember
  | version (version : Version)
  | package (name : Name)
  | setting (setting : Setting)
  | imported (file : Import)
  | message (message : Message)
  | enum (enum : Enum)
  | service (service : Service)
deriving DecidableEq, Repr

namespace File

/-- A file from its statements in the order of the text. -/
def ofMembers (members : List FileMember) : File where
  version := (members.filterMap fun | .version version => some version | _ => none).getLast?
  package := (members.filterMap fun | .package name => some name | _ => none).getLast?
  settings := members.filterMap fun | .setting setting => some setting | _ => none
  imports := members.filterMap fun | .imported file => some file | _ => none
  messages := members.filterMap fun | .message message => some message | _ => none
  enums := members.filterMap fun | .enum enum => some enum | _ => none
  services := members.filterMap fun | .service service => some service | _ => none

/-- The first message of a name. -/
def message? (file : File) (name : String) : Option Message :=
  file.messages.find? (·.name.isText name)

/-- The first enum of a name. -/
def enum? (file : File) (name : String) : Option Enum :=
  file.enums.find? (·.name.isText name)

/-- The first service of a name. -/
def service? (file : File) (name : String) : Option Service :=
  file.services.find? (·.name.isText name)

/-- The value of the first option of a name. -/
def setting? (file : File) (name : String) : Option String :=
  (file.settings.find? (·.name.isText name)).map Setting.value

/-- The message that a list of names leads to, the first of the file and each other one inside the
message before it. -/
def messageAt? (file : File) : List String → Option Message
  | [] => none
  | first :: rest =>
    rest.foldl (fun message name => message.bind (·.nested? name)) (file.message? first)

/-- Whether two files are the same up to the case of names. -/
def same (a b : File) : Bool :=
  a.version == b.version && a.package.toList.isEqv b.package.toList Name.same &&
    Setting.sameAll a.settings b.settings && a.imports == b.imports &&
    Message.sameAll a.messages b.messages && a.enums.isEqv b.enums Enum.same &&
    a.services.isEqv b.services Service.same

end File

end ProtoSchema
