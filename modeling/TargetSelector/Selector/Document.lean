import TargetSelector.Argument.OfJson
import TargetSelector.Json.Reader
import TargetSelector.Selector.Basic

/-!
Selectors from JSON documents. A document is an object with a target and perhaps arguments, or a list of
the two.
-/
namespace TargetSelector

inductive LoadError where
  | notJson (error : ReadError)
  | layout (error : DecodeError)
  | target (error : UnknownName)
  | argument (error : MalformedArgument)

def LoadError.message : LoadError → String
  | .notJson e => "invalid selector document: " ++ e.message
  | .layout e => "invalid selector document: " ++ e.message
  | .target e => e.message
  | .argument e => e.message

/-- The parts of a selector before they are understood. -/
structure Document where
  target : String
  arguments : List (String × Json)

namespace Document

def textOf : Json → Except DecodeError String
  | .string s => .ok s
  | v => .error (.wrongType v "a string")

def membersOf : Json → Except DecodeError (List (String × Json))
  | .object members => .ok members
  | v => .error (.wrongType v "a map")

/-- The target and the arguments that a list of members holds. The first member of the wrong type
decides the error. -/
def fields : List (String × Json) →
    Except DecodeError (Option String × Option (List (String × Json)))
  | [] => .ok (none, none)
  | (name, v) :: members =>
    if name = "target" then do
      let target ← textOf v
      return (some target, (← fields members).2)
    else if name = "arguments" then do
      let arguments ← membersOf v
      return ((← fields members).1, some arguments)
    else fields members

def ofJson : Json → Except DecodeError Document
  | .object members => do
    match ← fields members with
    | (some target, arguments) => return ⟨target, arguments.getD []⟩
    | (none, _) => .error (.missingField "target")
  | .array [] => .error (.tooShort 0 "struct SelectorDocument with 2 elements")
  | .array [t] => return ⟨← textOf t, []⟩
  | .array (t :: args :: more) => do
    let target ← textOf t
    let arguments ← membersOf args
    if more.isEmpty then return ⟨target, arguments⟩ else .error (.tooLong (more.length + 2))
  | v => .error (.wrongType v "struct SelectorDocument")

/-- Sets the argument of a member, under the key of its name. -/
def withMember (args : Arguments) (member : String × Json) :
    Except MalformedArgument Arguments := do
  let key := ArgumentKey.ofName member.1
  return OrderedMap.insert key (← ArgumentValue.ofJson key member.2) args

/-- Sets the arguments in order; the first one that is malformed decides the error. -/
def readArguments (members : List (String × Json)) : Except MalformedArgument Arguments :=
  members.foldlM withMember []

end Document

namespace Selector

def ofDocument (d : Document) : Except LoadError Selector := do
  let target ← (Target.parse d.target).mapError .target
  let arguments ← (Document.readArguments d.arguments).mapError .argument
  return ⟨target, arguments⟩

def ofJson (v : Json) : Except LoadError Selector := do
  ofDocument (← (Document.ofJson v).mapError .layout)

def load (text : String) : Except LoadError Selector := do
  ofJson (← (Json.parse text).mapError .notJson)

/-- Loads the selectors of a list of documents, or of one document that is no list. -/
def loadAll (text : String) : Except LoadError (List Selector) := do
  match ← (Json.parse text).mapError .notJson with
  | .array docs => docs.mapM ofJson
  | v => return [← ofJson v]

end Selector

end TargetSelector
