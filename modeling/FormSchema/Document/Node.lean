import FormSchema.Json.Size
import FormSchema.Schema.Attributes

/-!
The nodes of a document.  A node is a value each part of which has an identity of its own, by which
it can be told apart from equal values and followed while the document changes; besides, each part
knows the schema that describes it.  The identity and the schema are no part of the value.
-/

namespace FormSchema

inductive Scalar where
  | null
  | bool (value : Bool)
  | num (value : Number)
  | str (value : String)

def Scalar.toJson : Scalar → Json
  | .null => .null
  | .bool b => .bool b
  | .num n => .num n
  | .str s => .str s

inductive Key where
  | index (i : Nat)
  | name (s : String)
  deriving DecidableEq, Repr

namespace Key

def token : Key → String
  | index i => i.repr
  | name s => s

def toJson : Key → Json
  | index i => .ofNat i
  | name s => .str s

end Key

/-- What a node has besides its value. -/
structure Tag where
  id : Nat
  /-- The schema that describes the value, if one does. -/
  schema : Option Schema := none

inductive Node where
  | leaf (tag : Tag) (value : Scalar)
  | list (tag : Tag) (items : List Node)
  | record (tag : Tag) (fields : List (String × Node))

namespace Node

mutual

/-- The node of a value.  The parts get the identities from `next` on, each before the parts in
it. -/
def ofJson (tag : Tag) (next : Nat) : Json → Node
  | .null => .leaf tag .null
  | .bool b => .leaf tag (.bool b)
  | .num n => .leaf tag (.num n)
  | .str s => .leaf tag (.str s)
  | .arr items => .list tag (ofItems next items)
  | .obj fields => .record tag (ofFields next fields)

def ofItems (next : Nat) : List Json → List Node
  | [] => []
  | item :: items => ofJson ⟨next, none⟩ (next + 1) item :: ofItems (next + item.size) items

def ofFields (next : Nat) : List (String × Json) → List (String × Node)
  | [] => []
  | (key, item) :: fields =>
    (key, ofJson ⟨next, none⟩ (next + 1) item) :: ofFields (next + item.size) fields

end

def tag : Node → Tag
  | leaf tag _ | list tag _ | record tag _ => tag

def id (n : Node) : Nat := n.tag.id

def schema? (n : Node) : Option Schema := n.tag.schema

mutual

def value : Node → Json
  | leaf _ value => value.toJson
  | list _ items => .arr (valueItems items)
  | record _ fields => .obj (valueFields fields)

def valueItems : List Node → List Json
  | [] => []
  | item :: items => item.value :: valueItems items

def valueFields : List (String × Node) → List (String × Json)
  | [] => []
  | (key, item) :: fields => (key, item.value) :: valueFields fields

end

def kind : Node → Kind
  | leaf _ value => Kind.ofJson value.toJson
  | list _ _ => .array
  | record _ _ => .object

def children : Node → List (Key × Node)
  | leaf _ _ => []
  | list _ items => items.mapIdx fun i item => (.index i, item)
  | record _ fields => fields.map fun (key, item) => (.name key, item)

def child? (n : Node) (token : String) : Option (Key × Node) :=
  match n with
  | leaf _ _ => none
  | list _ items => do
    let i ← Number.index? token.toList
    return (.index i, ← items[i]?)
  | record _ fields => (fields.lookup token).map fun item => (.name token, item)

/-- The fields with another node under a key that they have. -/
def putField (key : String) (child : Node) : List (String × Node) → List (String × Node)
  | [] => []
  | (k, item) :: rest =>
    if k = key then (k, child) :: rest else (k, item) :: putField key child rest

def put (n : Node) (key : Key) (child : Node) : Node :=
  match n, key with
  | list tag items, .index i => list tag (items.set i child)
  | record tag fields, .name s => record tag (putField s child fields)
  | n, _ => n

/-- The node without the child at a key; later items move down. -/
def drop (n : Node) (key : Key) : Node :=
  match n, key with
  | list tag items, .index i => list tag (items.eraseIdx i)
  | record tag fields, .name s => record tag (fields.eraseP fun field => field.1 == s)
  | n, _ => n

end Node

end FormSchema
