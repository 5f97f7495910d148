import ProtoSchema.Schema.Header

/-!
# Services

A service is a set of methods. Each takes a request and gives a response, and either may be a stream
of messages.

* `Service.ofMembers`: a service from its name and its members in the order of the text.
-/

namespace ProtoSchema

/-- What a method takes or gives: one message, or a stream of them. -/
structure Payload where
  name : Name
  streaming : Bool
deriving DecidableEq, Repr

/-- A method of a service. -/
structure Method where
  name : Name
  input : Payload
  output : Payload
  settings : List Setting
deriving DecidableEq, Repr

/-- A set of methods that can be called. -/
structure Service where
  name : Name
  methods : List Method
  settings : List Setting
deriving DecidableEq, Repr

/-- A member of a service. -/
inductive ServiceMember
  | method (method : Method)
  | setting (setting : Setting)
deriving DecidableEq, Repr

/-- A service from its name and its members in the order of the text. -/
def Service.ofMembers (name : Name) (members : List ServiceMember) : Service where
  name
  methods := members.filterMap fun | .method method => some method | _ => none
  settings := members.filterMap fun | .setting setting => some setting | _ => none

/-- Whether two payloads are the same up to the case of names. -/
def Payload.same (a b : Payload) : Bool := a.name.same b.name && a.streaming == b.streaming

/-- Whether two methods are the same up to the case of names. -/
def Method.same (a b : Method) : Bool :=
  a.name.same b.name && a.input.same b.input && a.output.same b.output &&
    a.settings.isEqv b.settings Setting.same

/-- Whether two services are the same up to the case of names. -/
def Service.same (a b : Service) : Bool :=
  a.name.same b.name && a.methods.isEqv b.methods Method.same &&
    a.settings.isEqv b.settings Setting.same

end ProtoSchema
