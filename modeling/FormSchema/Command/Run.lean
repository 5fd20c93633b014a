import FormSchema.Command.Arguments
import FormSchema.Command.Wildcard
import FormSchema.Configuration.Basic
import FormSchema.Document.Link
import FormSchema.Schema.Normal
import FormSchema.Schema.Summary
import FormSchema.Validation.Basic

/-!
What the commands do: they read a schema, tell how its compilation went, and print a summary of it,
its normal form, how documents fit it, or the value of one keyword for one place.  The first failure
ends a command; what it has told until then stands.
-/

namespace FormSchema

namespace Command

inductive Failure where
  | unreadable (path : String)
  | notJson (path : String)
  | badConfiguration (path : String) (e : Configuration.Error)
  | refused (path : String) (e : Refusal)
  | noFolder
  | unwritable (path : String)
  | badWildcard (path : String)
  | nothingFound (path : String)
  | misfits (count total : Nat)
  | unknownKeyword (name : String)
  | badPointer (e : Pointer.Error)
  | root (pointer : String)
  | noValue (pointer : String)
  | unlinked (pointer : String)
  | undeclared (key pointer : String)

/-- One message about a failure; where the cause lies outside, only its nature is told. -/
inductive Message where
  | text (s : String)
  | files
  | json
  | wildcard
  deriving DecidableEq

/-- The messages about a failure, the outermost first. -/
def Failure.messages : Failure → List Message
  | .unreadable path => [.text ("cannot read " ++ path), .files]
  | .notJson path => [.text ("failed to parse JSON source file (" ++ path ++ ")"), .json]
  | .badConfiguration path e => [.text ("invalid config file " ++ path), .text e.message]
  | .refused path e => [.text ("cannot compile " ++ path), .text e.message]
  | .noFolder => [.files]
  | .unwritable path => [.text ("cannot write " ++ path), .files]
  | .badWildcard path => [.text ("bad glob pattern " ++ path), .wildcard]
  | .nothingFound path => [.text ("glob pattern matched no files: " ++ path)]
  | .misfits count total => [.text s!"{count} of {total} data files failed"]
  | .unknownKeyword name => [.text s!"unknown expression keyword `{name}`"]
  | .badPointer e => [.text e.message]
  | .root pointer => [.text s!"`{pointer}` names the root"]
  | .noValue pointer => [.text s!"no data at `{pointer}`"]
  | .unlinked pointer => [.text s!"`{pointer}` is not linked to the schema"]
  | .undeclared key pointer => [.text s!"the schema has no `{key}` under `{pointer}`"]

/-- What a command prints, and the lines in which it tells how things went. -/
structure Output where
  printed : String := ""
  told : List String := []

abbrev Run (m : Type → Type) := ExceptT Failure (StateT Output m)

variable {m : Type → Type} [Monad m]

def ask {α : Type} (action : m α) : Run m α := ExceptT.lift (StateT.lift action)

def orFail {α : Type} (failure : Failure) : Option α → Run m α
  | some value => pure value
  | none => throw failure

def print (text : String) : Run m Unit :=
  modify fun o => { o with printed := o.printed ++ text ++ "\n" }

def tell (lines : List String) : Run m Unit :=
  modify fun o => { o with told := o.told ++ lines }

def readText (files : Files m) (path : String) : Run m String := do
  orFail (.unreadable path) (← ask (files.read? path))

def readJson (files : Files m) (path : String) : Run m Json := do
  match Json.parse Json.Reading.nestingLimit (← readText files path) with
  | .ok value => return value
  | .error _ => throw (.notJson path)

/-- The configuration of a command; a dialect on the line counts before that of the file. -/
def configuration (files : Files m) (arguments : SchemaArguments) : Run m Configuration := do
  let c ← match arguments.config with
    | none => pure {}
    | some path => do
      match Configuration.ofText (← readText files path) with
      | .ok c => pure c
      | .error e => throw (.badConfiguration path e)
  return { c with dialect := arguments.dialect.getD c.dialect }

/-- The line that a subject gets when all is well, or its lines otherwise. -/
def good (subject : String) : String := "✔ " ++ subject

def bad (subject : String) (details : List String) : List String :=
  ("✘ " ++ subject) :: details.map ("    " ++ ·)

def compilationReport (path : String) (c : Compiled) : List String :=
  if c.isValid then [good s!"{path} ({c.schema.labels.length} nodes)"]
  else bad s!"{path} ({c.problems.length} errors)" (c.problems.map Problem.message)

def compileSchema (files : Files m) (arguments : SchemaArguments) (data : Option Json) :
    Run m Compiled := do
  let raw ← readJson files arguments.schema
  let c ← configuration files arguments
  match Compilation.run c.settings raw data with
  | .error e => throw (.refused arguments.schema e)
  | .ok compiled => do
    tell (compilationReport arguments.schema compiled)
    return compiled

/-- Prints a value, or writes it to a file, whose folder is made if need be. -/
def emit (files : Files m) (value : Json) : Option String → Run m Unit
  | none => print (value.pretty 0)
  | some path => do
    if !(← ask (files.makeFolder (PathText.folder path))) then throw .noFolder
    if !(← ask (files.write path (value.pretty 0))) then throw (.unwritable path)

def summary (c : Compiled) : Json :=
  .obj [("valid", .bool c.isValid), ("errors", .ofStrings (c.problems.map Problem.message)),
    ("nodes", c.schema.summary)]

/-- The paths that the inputs of a command name, those of each input in their order. -/
def inputPaths (files : Files m) : List String → Run m (List String)
  | [] => pure []
  | path :: paths => do
    let here ←
      if Wildcard.hasWildcard path then do
        let search ← orFail (.badWildcard path) (Wildcard.search? path)
        let found ← ask (search.run files)
        if found.isEmpty then throw (.nothingFound path)
        pure found
      else pure [path]
    return here ++ (← inputPaths files paths)

/-- What is wrong with a document: first its links, then the rest. -/
def complaints (c : Compiled) (data : Json) : List String :=
  let links := ((Document.ofJson data).link c).2
  let violations := Validation.run (.ofFormats Formats.standard) c.schema.normal data
  links.map (fun e => "link " ++ e.message) ++
    violations.map fun v => s!"invalid `{v.pointer}` " ++ v.message

/-- Tells of each document whether it fits, and returns how many do not. -/
def checkAll (files : Files m) (c : Compiled) : List String → Run m Nat
  | [] => pure 0
  | path :: paths => do
    let found := complaints c (← readJson files path)
    if found.isEmpty then tell [good path] else tell (bad path found)
    return (if found.isEmpty then 0 else 1) + (← checkAll files c paths)

/-- The value of a keyword at a pointer.  Where nothing stands, the schema of the last key under the
parent decides. -/
def evaluate (document : Document) (c : Compiled) (pointer : String) (keyword : Keyword) :
    Except Failure Json :=
  match document.byPointer? pointer with
  | some place => .ok (document.evaluate c.userData place keyword)
  | none => do
    let tokens ← (Pointer.parseAbsolute pointer).mapError .badPointer
    match tokens.getLast? with
    | none => .error (.root pointer)
    | some key =>
      let above := Pointer.join tokens.dropLast
      match document.byPointer? above with
      | none => .error (.noValue above)
      | some parent =>
        match parent.node.schema? with
        | none => .error (.unlinked above)
        | some schema =>
          match schema.child? key with
          | none => .error (.undeclared key above)
          | some child => .ok (document.evaluateAt c.userData child.label parent key keyword)

def runEval (files : Files m) (arguments : SchemaArguments) (data pointer name : String) :
    Run m Unit := do
  let keyword ← orFail (.unknownKeyword name) (Keyword.ofName? name)
  let value ← readJson files data
  let c ← compileSchema files arguments (some value)
  let (document, errors) := (Document.ofJson value).link c
  tell (errors.map fun e => "link " ++ e.message)
  print ((← (evaluate document c pointer keyword : Except Failure Json)).pretty 0)

def perform (files : Files m) : Command → Run m Unit
  | .compile arguments data out => do
    let value ← match data with
      | none => pure none
      | some path => do pure (some (← readJson files path))
    let c ← compileSchema files arguments value
    emit files (summary c) out
  | .normalize arguments out => do
    let c ← compileSchema files arguments none
    emit files c.schema.normal out
  | .link arguments inputs => do
    let c ← compileSchema files arguments none
    let paths ← inputPaths files inputs
    let failed ← checkAll files c paths
    if 0 < failed then throw (.misfits failed paths.length)
  | .eval arguments data pointer name => runEval files arguments data pointer name

/-- Runs a command: the failure that ended it, if any, and its output. -/
def run (files : Files m) (command : Command) : m (Option Failure × Output) := do
  let (result, output) ← (perform files command).run.run {}
  return (match result with
    | .ok () => none
    | .error e => some e, output)

end Command

end FormSchema
