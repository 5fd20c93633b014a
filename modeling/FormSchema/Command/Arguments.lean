import FormSchema.Schema.Dialect

/-!
The command line.  A verb is followed by its options; a long option may have its value after an
equals sign, short ones may stand together behind one hyphen, the last of them with its value.  An
option is complete when the next one begins or the line ends; only then its value is checked.
-/

namespace FormSchema

namespace Command

inductive Verb where
  | compile | normalize | link | eval
  deriving DecidableEq, Repr

inductive Parameter where
  | schema | config | dialect | data | out | input | pointer | keyword
  deriving DecidableEq, Repr

inductive UsageError where
  /-- Help was asked for. -/
  | help
  /-- There is nothing on the line. -/
  | nothing
  | noVerb
  | unknownVerb
  | unknownArgument
  | missingOption
  /-- A value is missing, empty or not one of those allowed. -/
  | badValue
  | repeated
  /-- A flag has a value. -/
  | flagValue
  deriving DecidableEq, Repr

namespace Verb

def all : List Verb := [compile, normalize, link, eval]

def name : Verb → String
  | compile => "compile"
  | normalize => "normalize"
  | link => "link"
  | eval => "eval"

def ofName? (name : String) : Option Verb := all.find? fun verb => verb.name == name

def required : Verb → List Parameter
  | compile | normalize => [.schema]
  | link => [.schema, .input]
  | eval => [.schema, .data, .pointer, .keyword]

def parameters : Verb → List Parameter
  | compile => [.schema, .config, .dialect, .data, .out]
  | normalize => [.schema, .config, .dialect, .out]
  | link => [.schema, .config, .dialect, .input]
  | eval => [.schema, .config, .dialect, .data, .pointer, .keyword]

theorem required_subset (verb : Verb) :
    ∀ parameter ∈ verb.required, parameter ∈ verb.parameters := by
  cases verb <;> decide

end Verb

namespace Parameter

def long : Parameter → String
  | schema => "schema"
  | config => "config"
  | dialect => "dialect"
  | data => "data"
  | out => "out"
  | input => "input"
  | pointer => "pointer"
  | keyword => "keyword"

def short? : Parameter → Option Char
  | schema => some 's'
  | config => some 'c'
  | dialect => none
  | data => some 'd'
  | out => some 'o'
  | input => some 'i'
  | pointer => some 'p'
  | keyword => some 'k'

/-- Whether a value is one that an option takes; paths are not empty. -/
def allows : Parameter → String → Bool
  | schema, value | config, value | data, value | out, value => value != ""
  | dialect, value => (Dialect.ofName? value).isSome
  | _, _ => true

end Parameter

abbrev Values := List (Parameter × List String)

structure Reading where
  values : Values := []
  /-- The option that is not complete yet, with its values so far. -/
  pending : Option (Parameter × List String) := none
  /-- Whether the next word may be a value of it. -/
  hungry : Bool := false

namespace Reading

/-- Adds a complete option.  Only inputs may come more than once. -/
def add (values : Values) (parameter : Parameter) (given : List String) :
    Except UsageError Values :=
  if given.isEmpty then .error .badValue
  else if parameter != .input && (values.lookup parameter).isSome then .error .repeated
  else if given.all parameter.allows then .ok (values ++ [(parameter, given)])
  else .error .badValue

/-- Completes the option that is pending. -/
def settle (r : Reading) : Except UsageError Reading := do
  match r.pending with
  | none => return r
  | some (parameter, given) => return { values := ← add r.values parameter given }

/-- An option begins, with its value or without. -/
def start (r : Reading) (parameter : Parameter) (value : Option String) :
    Except UsageError Reading := do
  let r ← r.settle
  match value with
  | some value => return { values := ← add r.values parameter [value] }
  | none => return { r with pending := some (parameter, []), hungry := true }

/-- A word that is no option: a value of the pending option, which takes one unless it is an
input. -/
def value (r : Reading) (word : String) : Except UsageError Reading :=
  match r.pending with
  | some (parameter, given) =>
    if r.hungry then
      .ok { r with pending := some (parameter, given ++ [word]), hungry := parameter == .input }
    else .error .unknownArgument
  | none => .error .unknownArgument

/-- The flag that asks for help, which counts only after the pending option is complete. -/
def help (r : Reading) : Except UsageError Reading := do
  let _ ← r.settle
  .error .help

def long (r : Reading) (verb : Verb) (text : List Char) : Except UsageError Reading :=
  let name := String.ofList (text.takeWhile (· != '='))
  let value := match text.drop name.length with
    | _ :: value => some (String.ofList value)
    | [] => none
  if name == "help" then if value.isSome then .error .flagValue else r.help
  else if name == "verbose" then if value.isSome then .error .flagValue else r.settle
  else
    match verb.parameters.find? fun parameter => parameter.long == name with
    | some parameter => r.start parameter value
    | none => .error .unknownArgument

def short (r : Reading) (verb : Verb) : List Char → Except UsageError Reading
  | [] => .ok r
  | c :: rest =>
    if c == 'h' then r.help
    else if c == 'v' then
      match r.settle with
      | .ok r => r.short verb rest
      | .error e => .error e
    else
      match verb.parameters.find? fun parameter => parameter.short? == some c with
      | some parameter =>
        r.start parameter (match rest with
          | [] => none
          | '=' :: value => some (String.ofList value)
          | value => some (String.ofList value))
      | none => .error .unknownArgument

/-- The words after the verb.  Nothing may follow two hyphens. -/
def words (r : Reading) (verb : Verb) : List String → Except UsageError Reading
  | [] => r.settle
  | word :: rest =>
    let next : Except UsageError Reading := match word.toList with
      | '-' :: '-' :: text => r.long verb text
      | '-' :: c :: text => r.short verb (c :: text)
      | _ => r.value word
    if word == "--" then if rest.isEmpty then r.settle else .error .unknownArgument
    else
      match next with
      | .ok r => r.words verb rest
      | .error e => .error e

end Reading

def helpOn : List String → UsageError
  | [] => .help
  | name :: rest =>
    if name == "help" || (Verb.ofName? name).isSome then
      if rest.isEmpty then .help else .unknownVerb
    else .unknownVerb

/-- The words before the verb, of which only flags are taken, and the words after it. -/
def findVerb (flagged : Bool) : List String → Except UsageError (Verb × List String)
  | [] => .error (if flagged then .noVerb else .nothing)
  | word :: rest =>
    if word == "help" then .error (helpOn rest)
    else
      match Verb.ofName? word with
      | some verb => .ok (verb, rest)
      | none =>
        if word == "--" then
          match rest with
          | [] => .error (if flagged then .noVerb else .nothing)
          | next :: _ =>
            .error (if next == "help" || (Verb.ofName? next).isSome then .unknownArgument
              else .unknownVerb)
        else
          match word.toList with
          | '-' :: '-' :: text =>
            if text == "verbose".toList then findVerb true rest
            else if text == "help".toList then .error .help
            else if "verbose=".toList.isPrefixOf text || "help=".toList.isPrefixOf text then
              .error .flagValue
            else .error .unknownArgument
          | '-' :: c :: text =>
            match (c :: text).dropWhile (· == 'v') with
            | [] => findVerb true rest
            | 'h' :: _ => .error .help
            | _ => .error .unknownArgument
          | _ => .error .unknownVerb

structure SchemaArguments where
  schema : String
  config : Option String
  dialect : Option Dialect

end Command

inductive Command where
  | compile (settings : Command.SchemaArguments) (data out : Option String)
  | normalize (settings : Command.SchemaArguments) (out : Option String)
  | link (settings : Command.SchemaArguments) (inputs : List String)
  | eval (settings : Command.SchemaArguments) (data pointer keyword : String)

namespace Command

def firstOf (values : Values) (parameter : Parameter) : Option String :=
  (values.lookup parameter).bind List.head?

/-- The command of a verb with its options; all that it needs have to be there. -/
def ofValues (verb : Verb) (values : Values) : Except UsageError Command := do
  let needed (parameter : Parameter) : Except UsageError String :=
    match firstOf values parameter with
    | some value => .ok value
    | none => .error .missingOption
  let settings : SchemaArguments :=
    { schema := ← needed .schema
      config := firstOf values .config
      dialect := (firstOf values .dialect).bind Dialect.ofName? }
  match verb with
  | .compile => return .compile settings (firstOf values .data) (firstOf values .out)
  | .normalize => return .normalize settings (firstOf values .out)
  | .link =>
    let _ ← needed .input
    return .link settings ((values.filter (·.1 == .input)).flatMap (·.2))
  | .eval =>
    return .eval settings (← needed .data) (← needed .pointer) (← needed .keyword)

/-- The command that the words of a command line ask for. -/
def ofWords (words : List String) : Except UsageError Command := do
  let (verb, rest) ← findVerb false words
  let reading ← ({} : Reading).words verb rest
  ofValues verb reading.values

end Command

end FormSchema
