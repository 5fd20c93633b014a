import FormSchema.Configuration.Mistake
import FormSchema.Schema.Compilation

/-!
Configurations and their text.  The text is taken apart in its order, so that of several mistakes
the first counts; what stands after the value is not looked at.  Objects may also be written as the
list of their fields.
-/

namespace FormSchema

structure Configuration where
  dialect : Dialect := .draft7
  userData : Json := .null
  /-- The choices that the application provides, by name. -/
  enums : List (String × List Choice) := []
  /-- The milliseconds that a request for choices may take. -/
  timeout : Option Nat := none

namespace Configuration

open Json (Reading Fault)

abbrev Result (α : Type) := Except Error α

def fail {α : Type} (path : Path) (mistake : Mistake) : Result α := .error ⟨path, mistake⟩

/-- Reads what stands under a key.  A missing colon is a mistake of the object. -/
def readUnder {α : Type} (read : Path → Reading → Result α) (path : Path) (key : String) :
    Reading → Result α
  | .bare fault => fail path (.badText fault)
  | reading => read (.key key :: path) reading

/-- What is wrong after the last field of an object stands where a key should. -/
def endOfFields {α : Type} (path : Path) (value : α) : Option Fault → Result α
  | none => .ok value
  | some fault => fail (.unreadable :: path) (.badText fault)

/-- What is wrong after the last item of a list is a mistake of the list. -/
def endOfItems {α : Type} (path : Path) (value : α) : Option Fault → Result α
  | none => .ok value
  | some fault => fail path (.badText fault)

mutual

def readValue (path : Path) : Reading → Result Json
  | .null => .ok .null
  | .bool b => .ok (.bool b)
  | .num n => .ok (.num n)
  | .str s => .ok (.str s)
  | .arr items fault => do endOfItems path (.arr (← readItems path 0 items)) fault
  | .obj fields fault => do
    endOfFields path (.obj (Fields.ofList (← readFields path fields))) fault
  | .bare fault => fail path (.badText fault)
  | .broken fault => fail path (.badText fault)

def readItems (path : Path) (i : Nat) : List Reading → Result (List Json)
  | [] => .ok []
  | item :: items => do
    let value ← readValue (.index i :: path) item
    return value :: (← readItems path (i + 1) items)

def readFields (path : Path) : List (String × Reading) → Result (List (String × Json))
  | [] => .ok []
  | (_, .bare fault) :: _ => fail path (.badText fault)
  | (key, item) :: fields => do
    let value ← readValue (.key key :: path) item
    return (key, value) :: (← readFields path fields)

end

def readText (path : Path) : Reading → Result String
  | .str s => .ok s
  | reading => fail path (misplaced .text reading)

def readTimeout (path : Path) : Reading → Result (Option Nat)
  | .null => .ok none
  | .num (.int n) =>
    if 0 ≤ n then .ok (some n.toNat)
    else fail path (.outOfRange (numberFound (.int n)) .natural)
  | reading => fail path (misplaced .natural reading)

/-- The end of a list that stands for an object of which all fields have been read. -/
def endOfStruct {α : Type} (path : Path) (value : α) (rest : List Reading) (fault : Option Fault) :
    Result α :=
  match rest, fault with
  | [], none => .ok value
  | [], some .trailingComma => fail path (.badText .trailingComma)
  | [], some .endOfList => fail path (.badText .endOfList)
  | _, _ => fail path (.badText .trailingCharacters)

structure PartialChoice where
  value : Option Json := none
  title : Option String := none

def PartialChoice.finish (path : Path) (c : PartialChoice) : Result Choice :=
  match c.value, c.title with
  | some value, some title => .ok ⟨value, title⟩
  | none, _ => fail path (.missingField "value")
  | some _, none => fail path (.missingField "title")

/-- The fields of a choice; others are read and forgotten. -/
def readChoiceFields (path : Path) (c : PartialChoice) :
    List (String × Reading) → Result PartialChoice
  | [] => .ok c
  | (key, item) :: fields => do
    let c ← match key with
      | "value" =>
        if c.value.isSome then fail path (.duplicateField key)
        else pure { c with value := some (← readUnder readValue path key item) }
      | "title" =>
        if c.title.isSome then fail path (.duplicateField key)
        else pure { c with title := some (← readUnder readText path key item) }
      | _ => do
        let _ ← readUnder (fun path reading => reading.value.mapError fun fault =>
          ⟨path, .badText fault⟩) path key item
        pure c
    readChoiceFields path c fields

def readChoice (path : Path) : Reading → Result Choice
  | .obj fields fault => do
    let c ← readChoiceFields path {} fields
    (← endOfFields path c fault).finish path
  | .arr [] fault => endOfItems path () fault >>= fun _ => fail path (.wrongLength 0 .choice 2)
  | .arr [value] fault => do
    let _ ← readValue (.index 0 :: path) value
    endOfItems path () fault >>= fun _ => fail path (.wrongLength 1 .choice 2)
  | .arr (value :: title :: rest) fault => do
    let value ← readValue (.index 0 :: path) value
    let title ← readText (.index 1 :: path) title
    endOfStruct path ⟨value, title⟩ rest fault
  | reading => fail path (misplaced .choice reading)

def readChoiceItems (path : Path) (i : Nat) : List Reading → Result (List Choice)
  | [] => .ok []
  | item :: items => do
    let choice ← readChoice (.index i :: path) item
    return choice :: (← readChoiceItems path (i + 1) items)

def readChoices (path : Path) : Reading → Result (List Choice)
  | .arr items fault => do endOfItems path (← readChoiceItems path 0 items) fault
  | reading => fail path (misplaced .sequence reading)

/-- Sets a name: in its place if it is there, at the end if it is new. -/
def setChoices (name : String) (choices : List Choice) :
    List (String × List Choice) → List (String × List Choice)
  | [] => [(name, choices)]
  | (n, c) :: rest =>
    if n = name then (n, choices) :: rest else (n, c) :: setChoices name choices rest

def readEnumFields (path : Path) (known : List (String × List Choice)) :
    List (String × Reading) → Result (List (String × List Choice))
  | [] => .ok known
  | (name, item) :: fields => do
    let choices ← readUnder readChoices path name item
    readEnumFields path (setChoices name choices known) fields

def readEnums (path : Path) : Reading → Result (List (String × List Choice))
  | .obj fields fault => do endOfFields path (← readEnumFields path [] fields) fault
  | reading => fail path (misplaced .map reading)

/-- The mistakes of text that are noticed inside a name; any other text is no name at all. -/
def nameFault : Fault → Fault
  | .endOfValue => .endOfValue
  | .endOfString => .endOfString
  | .invalidEscape => .invalidEscape
  | .controlCharacter => .controlCharacter
  | .loneSurrogate => .loneSurrogate
  | .unpairedSurrogate => .unpairedSurrogate
  | _ => .expectedValue

def dialectNamed (path : Path) (name : String) : Result Dialect :=
  match Dialect.ofName? name with
  | some dialect => .ok dialect
  | none => fail path (.unknownVariant name (Dialect.all.map Dialect.name))

/-- A dialect: its name, or an object with null under its name. -/
def readDialect (path : Path) : Reading → Result Dialect
  | .str name => dialectNamed path name
  | .obj [] none => fail path (.badText .expectedValue)
  | .obj [] (some fault) => fail path (.badText fault)
  | .obj ((name, item) :: rest) fault => do
    let dialect ← dialectNamed path name
    match item, rest, fault with
    | .bare fault, _, _ => fail path (.badText fault)
    | .null, [], none => return dialect
    | .null, [], some .endOfObject => fail path (.badText .endOfObject)
    | .null, _, _ => fail path (.badText .expectedValue)
    | item, _, _ => fail (.key name :: path) (misplaced .unit item)
  | .broken fault => fail path (.badText (nameFault fault))
  | _ => fail path (.badText .expectedValue)

def readDialectValue (value : Json) : Except Mistake Dialect :=
  match value with
  | .str name => (dialectNamed [] name).mapError Error.mistake
  | .obj [(name, content)] => do
    let dialect ← (dialectNamed [] name).mapError Error.mistake
    match content with
    | .null => return dialect
    | other => throw (misplaced .unit (Reading.ofJson other))
  | .obj _ => .error (.outOfRange "map" .singleKey)
  | other => .error (misplaced .nameOrMap (Reading.ofJson other))

def fieldNames : List String := ["dialect", "userData", "enums", "enumTimeoutMs"]

/-- The fields of a configuration, with those that have been met. -/
def readConfigurationFields (path : Path) (met : List String) (c : Configuration) :
    List (String × Reading) → Result Configuration
  | [] => .ok c
  | (key, item) :: fields => do
    if !fieldNames.contains key then
      fail (.key key :: path) (.unknownField key fieldNames)
    else if met.contains key then fail path (.duplicateField key)
    else
      let c ← match key with
        | "dialect" => pure { c with dialect := ← readUnder readDialect path key item }
        | "userData" => pure { c with userData := ← readUnder readValue path key item }
        | "enums" => pure { c with enums := ← readUnder readEnums path key item }
        | _ => pure { c with timeout := ← readUnder readTimeout path key item }
      readConfigurationFields path (key :: met) c fields

def readConfigurationItems (path : Path) (items : List Reading) (fault : Option Fault) :
    Result Configuration :=
  match items with
  | [] => endOfItems path {} fault
  | dialect :: items => do
    let c : Configuration := { dialect := ← readDialect (.index 0 :: path) dialect }
    match items with
    | [] => endOfItems path c fault
    | userData :: items =>
      let c := { c with userData := ← readValue (.index 1 :: path) userData }
      match items with
      | [] => endOfItems path c fault
      | enums :: items =>
        let c := { c with enums := ← readEnums (.index 2 :: path) enums }
        match items with
        | [] => endOfItems path c fault
        | timeout :: rest =>
          let c := { c with timeout := ← readTimeout (.index 3 :: path) timeout }
          endOfStruct path c rest fault

def read (path : Path) : Reading → Result Configuration
  | .obj fields fault => do
    endOfFields path (← readConfigurationFields path [] {} fields) fault
  | .arr items fault => readConfigurationItems path items fault
  | reading => fail path (misplaced .configuration reading)

def ofText (text : String) : Result Configuration :=
  read [] (Reading.ofText Reading.nestingLimit text).1

/-- What schemas are compiled with under a configuration. -/
def settings (c : Configuration) : Settings where
  dialect := c.dialect
  userData := c.userData
  sources :=
    { provided := fun name => c.enums.lookup name
      timeout := c.timeout.getD ({} : Enumeration.Sources).timeout }

end Configuration

end FormSchema
