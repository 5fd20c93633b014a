import FormSchema.Json.Reader
import FormSchema.Json.Writer
import FormSchema.Text.Quoted

/-! What can be wrong with the text of a configuration, and where. -/

namespace FormSchema.Configuration

inductive Step where
  | key (name : String)
  | index (i : Nat)
  /-- A key that could not be read. -/
  | unreadable

/-- The steps from the top, the last one first. -/
abbrev Path := List Step

/-- The text of a path: keys with points between them, and indices in brackets. -/
def pathText (path : Path) : String :=
  match path with
  | [] => "."
  | path => String.join (go "" path.reverse)
where
  go (separator : String) : List Step → List String
    | [] => []
    | .key name :: rest => separator :: name :: go "." rest
    | .index i :: rest => "[" :: i.repr :: "]" :: go "." rest
    | .unreadable :: rest => separator :: "?" :: go "." rest

/-- The forms that the parts of a configuration can have. -/
inductive Form where
  | configuration | choice | map | sequence | text | natural | unit | nameOrMap | singleKey
  deriving DecidableEq, Repr

def Form.name : Form → String
  | .configuration => "struct ConfigFile"
  | .choice => "struct EnumItem"
  | .map => "a map"
  | .sequence => "a sequence"
  | .text => "a string"
  | .natural => "u64"
  | .unit => "unit"
  | .nameOrMap => "string or map"
  | .singleKey => "map with a single key"

inductive Mistake where
  | badText (fault : Json.Fault)
  | wrongForm (found : String) (expected : Form)
  | outOfRange (found : String) (expected : Form)
  | wrongLength (found : Nat) (expected : Form) (length : Nat)
  | unknownField (name : String) (known : List String)
  | duplicateField (name : String)
  | missingField (name : String)
  | unknownVariant (name : String) (known : List String)
  deriving DecidableEq, Repr

def oneOf (names : List String) : String :=
  "expected one of " ++ String.intercalate ", " (names.map fun name => s!"`{name}`")

def Mistake.message : Mistake → String
  | .badText fault => fault.message
  | .wrongForm found expected => s!"invalid type: {found}, expected " ++ expected.name
  | .outOfRange found expected => s!"invalid value: {found}, expected " ++ expected.name
  | .wrongLength found expected length =>
    s!"invalid length {found}, expected " ++ expected.name ++ s!" with {length} elements"
  | .unknownField name known => s!"unknown field `{name}`, " ++ oneOf known
  | .duplicateField name => s!"duplicate field `{name}`"
  | .missingField name => s!"missing field `{name}`"
  | .unknownVariant name known => s!"unknown variant `{name}`, " ++ oneOf known

structure Error where
  path : Path
  mistake : Mistake

def Error.message (e : Error) : String :=
  "at JSON path " ++ pathText e.path ++ " → " ++ e.mistake.message

def numberFound : Number → String
  | .int n => s!"integer `{n}`"
  | .float x => "floating point `" ++ (Number.float x).text ++ "`"

open Json (Reading)

/-- The complaint about a value that has another form than it should. -/
def misplaced (expected : Form) : Reading → Mistake
  | .null => .wrongForm "null" expected
  | .bool b => .wrongForm (if b then "boolean `true`" else "boolean `false`") expected
  | .num n => .wrongForm (numberFound n) expected
  | .str s => .wrongForm ("string " ++ Text.quoted s) expected
  | .arr _ _ => .wrongForm "sequence" expected
  | .obj _ _ => .wrongForm "map" expected
  | .bare fault => .badText fault
  | .broken fault => .badText fault

end FormSchema.Configuration
