import TargetSelector.Selector.Document
import TargetSelector.Selector.Sink

/-!
The command line: documents in, one line of text for each selector out. The whole input is loaded before
anything is written.
-/
namespace TargetSelector

namespace CommandLine

structure Options where
  /-- The file that holds the documents; standard input if there is none. -/
  input : Option String
  /-- Write each fragment as it is produced. -/
  stream : Bool
deriving DecidableEq

/-- Each option may be given once, and a path is not empty. -/
def Options.withInput? (o : Options) (path : List Char) : Option Options :=
  if path.isEmpty || o.input.isSome then none else some ⟨some (.ofList path), o.stream⟩

def Options.withStream? (o : Options) : Option Options :=
  if o.stream then none else some ⟨o.input, true⟩

/-- Reads the letters after one dash. All that follows an `i`, but for one `=`, is the path. `true`
says that the path is still to come. -/
def Options.withLetters? (o : Options) : List Char → Option (Options × Bool)
  | [] => some (o, false)
  | ['i'] => some (o, true)
  | 'i' :: '=' :: path | 'i' :: path => return (← o.withInput? path, false)
  | 's' :: letters => do withLetters? (← o.withStream?) letters
  | _ => none

/-- Reads one argument. `true` says that the path is still to come. -/
def Options.withArgument? (o : Options) : List Char → Option (Options × Bool)
  | '-' :: '-' :: word =>
    if word = "stream".toList then return (← o.withStream?, false)
    else if word = "input".toList then some (o, true)
    else do return (← o.withInput? (← "input=".toList.isPrefixOf? word), false)
  | '-' :: letter :: letters => o.withLetters? (letter :: letters)
  | _ => none

/-- Whether an argument looks like an option, and is no path. A lone dash is a path. -/
def looksLikeOption : List Char → Bool
  | '-' :: _ :: _ => true
  | _ => false

def Options.withArguments? (o : Options) : List (List Char) → Option Options
  | [] | [['-', '-']] => some o
  | arg :: args => do
    match ← o.withArgument? arg with
    | (o, false) => withArguments? o args
    | (o, true) =>
      match args with
      | [] => none
      | path :: args =>
        if looksLikeOption path then none else withArguments? (← o.withInput? path) args

/-- Reads the arguments of the command line. Two dashes may end them. -/
def Options.ofArgs? (args : List String) : Option Options :=
  Options.withArguments? ⟨none, false⟩ (args.map String.toList)

example : Options.ofArgs? ["-sidocs.json", "--"] = some ⟨some "docs.json", true⟩ := by decide +kernel
example : Options.ofArgs? ["--input=a=b", "-s"] = some ⟨some "a=b", true⟩ := by decide +kernel
example : Options.ofArgs? ["-i", "--", "docs.json"] = none := by decide +kernel

def usage : String := "usage: selector [--input FILE] [--stream]\n"

/-- Why the input cannot be read as text. In `throughFile` a path goes on after the name of a file. -/
inductive ReadFailure where
  | missing
  | denied
  | throughFile
  | directory
  | longName
  | notText
  | other (message : String)

def ReadFailure.message : ReadFailure → String
  | .missing => "No such file or directory (os error 2)"
  | .denied => "Permission denied (os error 13)"
  | .throughFile => "Not a directory (os error 20)"
  | .directory => "Is a directory (os error 21)"
  | .longName => "File name too long (os error 36)"
  | .notText => "stream did not contain valid UTF-8"
  | .other m => m

/-- A failure: what was being done, and the causes, each brought about by the next. -/
structure Failure where
  context : String
  causes : List String

/-- A cause with its mark. The lines after the first are indented to the same column. -/
def markedCause (mark cause : String) : String :=
  "\n" ++ mark ++ String.ofList (cause.toList.flatMap fun c =>
    if c = '\n' then c :: List.replicate mark.length ' ' else [c])

/-- The report of a failure. Two or more causes are numbered. -/
def Failure.report (f : Failure) : String :=
  let causes := match f.causes with
    | [cause] => [markedCause "    " cause]
    | causes => causes.mapIdx fun i cause =>
      markedCause (String.ofList (i.repr.toList.leftpad 5 ' ') ++ ": ") cause
  "Error: " ++ f.context ++
    (if causes.isEmpty then "" else "\n\nCaused by:" ++ String.join causes) ++ "\n"

/-- The causes of a load error. A document that is not JSON, or has the wrong layout, has a cause of
its own. -/
def loadCauses (e : LoadError) : List String :=
  match e with
  | .notJson cause => [e.message, cause.message]
  | .layout cause => [e.message, cause.message]
  | .target _ | .argument _ => [e.message]

def writeCauses (e : WriteError) : List String :=
  match e with
  | .sink cause => [e.message, cause]
  | .malformed _ => [e.message]

/-- Writes a text as a whole. A refusal of the sink is the failure, with nothing around it. -/
def writeText (text : String) (out : Sink) : Option (Sink × Option Failure) := do
  let (out, refused) ← out.writeAll (utf8 text)
  return (out, refused.map fun message => ⟨message, []⟩)

/-- Writes the text of a selector, fragment by fragment or as a whole. The second way writes nothing
if an argument is malformed. `context` says what is being done. -/
def writeSelector (stream : Bool) (context : String) (s : Selector) (out : Sink) :
    Option (Sink × Option Failure) :=
  if stream then do
    let (out, error) ← s.writeTo out
    return (out, error.map fun e => ⟨context, writeCauses e⟩)
  else match s.format with
    | .ok text => writeText text out
    | .error e => some (out, some ⟨context, [e.message]⟩)

def writeContext (i : Nat) : String := "failed to format selector #" ++ i.repr

/-- Writes a line for each selector, numbered from `i`, up to the first failure. -/
def writeLines (stream : Bool) (i : Nat) : List Selector → Sink → Option (Sink × Option Failure)
  | [], out => some (out, none)
  | s :: selectors, out => do
    match ← writeSelector stream (writeContext i) s out with
    | (out, some f) => return (out, some f)
    | (out, none) =>
      match ← writeText "\n" out with
      | (out, some f) => return (out, some f)
      | (out, none) => writeLines stream (i + 1) selectors out

structure Outcome where
  status : UInt8
  stdout : List UInt8
  stderr : String

def Outcome.ofFailure (out : List UInt8) (f : Failure) : Outcome := ⟨1, out, f.report⟩

def decodeInput (input : Except ReadFailure ByteArray) : Except ReadFailure String := do
  match String.fromUTF8? (← input) with
  | some text => return text
  | none => .error .notText

def readContext (o : Options) : String :=
  "failed to read " ++ o.input.getD "stdin"

def loadContext : String := "failed to load selector documents"

/-- One run over an input that was read already. -/
def run (o : Options) (input : Except ReadFailure ByteArray) : Option Outcome :=
  match decodeInput input with
  | .error e => some (.ofFailure [] ⟨readContext o, [e.message]⟩)
  | .ok text =>
    match Selector.loadAll text with
    | .error e => some (.ofFailure [] ⟨loadContext, loadCauses e⟩)
    | .ok selectors => do
      match ← writeLines o.stream 0 selectors .unlimited with
      | (out, none) => return ⟨0, out.received, ""⟩
      | (out, some f) => return .ofFailure out.received f

end CommandLine

end TargetSelector
