import FormSchema.Json.Token

/-!
Reading JSON text.  A reading keeps what was understood and marks the one place where the text goes
wrong, so that whoever takes it apart in the order of the text meets its own complaints and those of
the text in that order.
-/

namespace FormSchema.Json

/-- A value as far as it could be read. -/
inductive Reading where
  | null
  | bool (value : Bool)
  | num (value : Number)
  | str (value : String)
  /-- The items, and what is wrong after the last of them. -/
  | arr (items : List Reading) (fault : Option Fault)
  /-- The fields, and what is wrong after the last of them. -/
  | obj (fields : List (String × Reading)) (fault : Option Fault)
  /-- The key has no colon after it. -/
  | bare (fault : Fault)
  /-- No value can be read here. -/
  | broken (fault : Fault)

namespace Reading

/-- A container that is being read: its parts so far, the last one first. -/
inductive Frame where
  | arr (items : List Reading)
  | obj (fields : List (String × Reading))
  /-- The value of `key` is being read. -/
  | entry (fields : List (String × Reading)) (key : String)

/-- What is expected next, inside the containers of a stack. -/
inductive State where
  | value
  | item (items : List Reading)
  | firstItem
  | key (fields : List (String × Reading))
  | firstKey
  | colon (fields : List (String × Reading)) (key : String)
  | separator

/-- The whole reading, once nothing more can be added to the containers of the stack. -/
def wind (reading : Reading) : List Frame → Reading
  | [] => reading
  | .arr items :: stack => wind (.arr (reading :: items).reverse none) stack
  | .obj fields :: stack => wind (.obj fields.reverse none) stack
  | .entry fields key :: stack => wind (.obj ((key, reading) :: fields).reverse none) stack

/-- Either the reading is over or it goes on in a state. -/
inductive Step where
  | done (reading : Reading)
  | next (state : State) (stack : List Frame)

def complete (reading : Reading) : List Frame → Step
  | [] => .done reading
  | .arr items :: stack => .next .separator (.arr (reading :: items) :: stack)
  | .entry fields key :: stack => .next .separator (.obj ((key, reading) :: fields) :: stack)
  | .obj fields :: stack => .next .separator (.obj fields :: stack)

/-- A value that starts with a word; at most `limit` containers may be open. -/
def start (limit : Nat) (stack : List Frame) : Token → Step
  | .null => complete .null stack
  | .bool b => complete (.bool b) stack
  | .num n => complete (.num n) stack
  | .str s => complete (.str s) stack
  | .openArr =>
    if stack.length < limit then .next .firstItem stack else .done (wind (.broken .tooDeep) stack)
  | .openObj =>
    if stack.length < limit then .next .firstKey stack else .done (wind (.broken .tooDeep) stack)
  | .wrong fault _ => .done (wind (.broken fault) stack)
  | _ => .done (wind (.broken .expectedValue) stack)

def startKey (fields : List (String × Reading)) (stack : List Frame) : Token → Step
  | .str key => .next (.colon fields key) stack
  | .wrong fault true => .done (wind (.obj fields.reverse (some fault)) stack)
  | _ => .done (wind (.obj fields.reverse (some .keyNotString)) stack)

def step (limit : Nat) (stack : List Frame) : State → Token → Step
  | .value, token => start limit stack token
  | .firstItem, .closeArr => complete (.arr [] none) stack
  | .firstItem, token => start limit (.arr [] :: stack) token
  | .item items, .closeArr => .done (wind (.arr items.reverse (some .trailingComma)) stack)
  | .item items, token => start limit (.arr items :: stack) token
  | .firstKey, .closeObj => complete (.obj [] none) stack
  | .firstKey, token => startKey [] stack token
  | .key fields, .closeObj => .done (wind (.obj fields.reverse (some .trailingComma)) stack)
  | .key fields, token => startKey fields stack token
  | .colon fields key, .colon => .next .value (.entry fields key :: stack)
  | .colon fields key, _ => .done (wind (.bare .expectedColon) (.entry fields key :: stack))
  | .separator, token =>
    match stack, token with
    | .arr items :: stack, .comma => .next (.item items) stack
    | .arr items :: stack, .closeArr => complete (.arr items.reverse none) stack
    | .arr items :: stack, _ => .done (wind (.arr items.reverse (some .expectedListEnd)) stack)
    | .obj fields :: stack, .comma => .next (.key fields) stack
    | .obj fields :: stack, .closeObj => complete (.obj fields.reverse none) stack
    | .obj fields :: stack, _ =>
      .done (wind (.obj fields.reverse (some .expectedObjectEnd)) stack)
    | stack, _ => .done (wind (.broken .expectedValue) stack)

def finish (stack : List Frame) : State → Reading
  | .value => wind (.broken .endOfValue) stack
  | .firstItem => wind (.arr [] (some .endOfList)) stack
  | .item items => wind (.arr items.reverse (some .endOfValue)) stack
  | .firstKey => wind (.obj [] (some .endOfObject)) stack
  | .key fields => wind (.obj fields.reverse (some .endOfValue)) stack
  | .colon fields key => wind (.bare .endOfObject) (.entry fields key :: stack)
  | .separator =>
    match stack with
    | .arr items :: stack => wind (.arr items.reverse (some .endOfList)) stack
    | .obj fields :: stack => wind (.obj fields.reverse (some .endOfObject)) stack
    | stack => wind (.broken .endOfValue) stack

/-- Reads the first value of a list of words, and gives the words after it. -/
def run (limit : Nat) (state : State) (stack : List Frame) : List Token → Reading × List Token
  | [] => (finish stack state, [])
  | token :: rest =>
    match step limit stack state token with
    | .done reading => (reading, rest)
    | .next state stack => run limit state stack rest

/-- How many arrays and objects may be nested. -/
def nestingLimit : Nat := 127

/-- Reads the first value of a text, and gives the words after it. -/
def ofText (limit : Nat) (text : String) : Reading × List Token :=
  run limit .value [] (tokens text.toList)

mutual

/-- The reading of a value, in which nothing is wrong. -/
def ofJson : Json → Reading
  | .null => .null
  | .bool b => .bool b
  | .num n => .num n
  | .str s => .str s
  | .arr items => .arr (ofItems items) none
  | .obj fields => .obj (ofFields fields) none

def ofItems : List Json → List Reading
  | [] => []
  | item :: items => ofJson item :: ofItems items

def ofFields : List (String × Json) → List (String × Reading)
  | [] => []
  | (key, item) :: fields => (key, ofJson item) :: ofFields fields

end

mutual

/-- The value, or the first thing that is wrong with it.  Of two fields with one key the place of
the first and the value of the last count. -/
def value : Reading → Except Fault Json
  | .null => .ok .null
  | .bool b => .ok (.bool b)
  | .num n => .ok (.num n)
  | .str s => .ok (.str s)
  | .arr items fault => do
    let items ← itemValues items
    match fault with
    | none => return .arr items
    | some fault => throw fault
  | .obj fields fault => do
    let fields ← fieldValues fields
    match fault with
    | none => return .obj (Fields.ofList fields)
    | some fault => throw fault
  | .bare fault => .error fault
  | .broken fault => .error fault

def itemValues : List Reading → Except Fault (List Json)
  | [] => .ok []
  | item :: items => do
    let item ← item.value
    return item :: (← itemValues items)

def fieldValues : List (String × Reading) → Except Fault (List (String × Json))
  | [] => .ok []
  | (key, item) :: items => do
    let item ← item.value
    return (key, item) :: (← fieldValues items)

end

end Reading

/-- The value of a text that holds one value and nothing else. -/
def parse (limit : Nat) (text : String) : Except Fault Json := do
  let (reading, rest) := Reading.ofText limit text
  let value ← reading.value
  if rest.isEmpty then return value else throw .trailingCharacters

end FormSchema.Json
