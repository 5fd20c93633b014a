import FormSchema.Document.Node

/-!
Stores.  A document is kept in slots, one for each node; the identity of a node is the number of its
slot.  A node has the identities of its parent and of its children, and the number of the schema that
describes it is kept apart from it.  A slot that a node has left stays empty for ever.

Every walk through a store is bounded by the number of its slots.
-/

namespace FormSchema

/-- The value of a node, with identities in place of its parts. -/
inductive Content where
  | scalar (value : Scalar)
  | array (items : List Nat)
  | object (fields : List (String × Nat))

namespace Content

def children : Content → List Nat
  | scalar _ => []
  | array items => items
  | object fields => fields.map (·.2)

def kind : Content → Kind
  | scalar value => Kind.ofJson value.toJson
  | array _ => .array
  | object _ => .object

def keyOf? (id : Nat) : Content → Option Key
  | scalar _ => none
  | array items => (items.idxOf? id).map .index
  | object fields => (fields.find? fun field => field.2 == id).map fun field => .name field.1

def child? (token : String) : Content → Option Nat
  | scalar _ => none
  | array items => do items[← Number.index? token.toList]?
  | object fields => fields.lookup token

def without (id : Nat) : Content → Content
  | scalar value => scalar value
  | array items => array (items.filter (· != id))
  | object fields => object (fields.filter fun field => field.2 != id)

/-- The content with one more item, if it is that of an array. -/
def append (id : Nat) : Content → Content
  | array items => array (items ++ [id])
  | content => content

end Content

/-- What is in a slot. -/
structure Entry where
  content : Content
  parent : Option Nat

structure Store where
  slots : List (Option Entry)
  /-- The numbers of the schemas that describe nodes. -/
  links : Nat → Option Nat

namespace Store

variable (s : Store)

def slot? (id : Nat) : Option Entry := s.slots[id]?.join

def content? (id : Nat) : Option Content := (s.slot? id).map Entry.content

def parent? (id : Nat) : Option Nat := (s.slot? id).bind Entry.parent

def kind? (id : Nat) : Option Kind := (s.content? id).map Content.kind

def children (id : Nat) : List Nat := ((s.content? id).map Content.children).getD []

def ids : List Nat := (List.range s.slots.length).filter fun id => (s.slot? id).isSome

/-- The value below a node; parts that are not there are left out. -/
def valueWithin : Nat → Nat → Option Json
  | 0, _ => none
  | fuel + 1, id =>
    (s.content? id).map fun
      | .scalar value => value.toJson
      | .array items => .arr (items.filterMap (valueWithin fuel))
      | .object fields =>
        .obj (fields.filterMap fun field => (valueWithin fuel field.2).map (field.1, ·))

def value? (id : Nat) : Option Json := s.valueWithin s.slots.length id

def value : Json := (s.value? 0).getD .null

def key? (id : Nat) : Option Key :=
  (s.parent? id).bind fun parent => (s.content? parent).bind (Content.keyOf? id)

def ancestorsWithin : Nat → Nat → List Nat
  | 0, _ => []
  | fuel + 1, id =>
    match s.parent? id with
    | none => []
    | some parent => parent :: ancestorsWithin fuel parent

def ancestors (id : Nat) : List Nat := s.ancestorsWithin s.slots.length id

def path (id : Nat) : List Key := ((id :: s.ancestors id).filterMap s.key?).reverse

def tokens (id : Nat) : List String := (s.path id).map Key.token

def pointer (id : Nat) : String := Pointer.join (s.tokens id)

def child? (id : Nat) (token : String) : Option Nat := (s.content? id).bind (Content.child? token)

def navigation : Pointer.Navigation Nat where
  root := 0
  ancestors := s.ancestors
  child? := s.child?

def resolve (start : Nat) (pointer : String) : Except Pointer.Error (Option Nat) :=
  Pointer.resolveText s.navigation start pointer

def byPointer? (pointer : String) : Option Nat :=
  match s.resolve 0 pointer with
  | .ok found => found
  | .error _ => none

/-! ## Slots -/

def grow (entry : Entry) : Store := { s with slots := s.slots ++ [some entry] }

def update (id : Nat) (f : Content → Content) : Store :=
  { s with slots := s.slots.modify id (Option.map fun entry =>
      { entry with content := f entry.content }) }

def setLink (id : Nat) (number : Option Nat) : Store :=
  { s with links := fun i => if i = id then number else s.links i }

def remove (id : Nat) : Store :=
  { slots := s.slots.set id none, links := fun i => if i = id then none else s.links i }

mutual

/-- The content of a node with a value.  The parts get slots of their own, each before the parts in
it; a slot is empty of content until its parts have got theirs. -/
def contentOf (s : Store) (id : Nat) : Json → Content × Store
  | .null => (.scalar .null, s)
  | .bool b => (.scalar (.bool b), s)
  | .num n => (.scalar (.num n), s)
  | .str t => (.scalar (.str t), s)
  | .arr items =>
    let (ids, s) := itemsOf s id items
    (.array ids, s)
  | .obj fields =>
    let (fields, s) := fieldsOf s id fields
    (.object fields, s)

def itemsOf (s : Store) (parent : Nat) : List Json → List Nat × Store
  | [] => ([], s)
  | item :: items =>
    let id := s.slots.length
    let (content, s) := contentOf (s.grow ⟨.scalar .null, some parent⟩) id item
    let (ids, s) := itemsOf (s.update id fun _ => content) parent items
    (id :: ids, s)

def fieldsOf (s : Store) (parent : Nat) : List (String × Json) → List (String × Nat) × Store
  | [] => ([], s)
  | (key, item) :: fields =>
    let id := s.slots.length
    let (content, s) := contentOf (s.grow ⟨.scalar .null, some parent⟩) id item
    let (fields, s) := fieldsOf (s.update id fun _ => content) parent fields
    ((key, id) :: fields, s)

end

def alloc (parent : Option Nat) (value : Json) : Nat × Store :=
  let id := s.slots.length
  let (content, s) := contentOf (s.grow ⟨.scalar .null, parent⟩) id value
  (id, s.update id fun _ => content)

def ofJson (value : Json) : Store := (alloc ⟨[], fun _ => none⟩ none value).2

def releaseWithin : Nat → Store → Nat → Store
  | 0, s, _ => s
  | fuel + 1, s, id => ((s.children id).foldl (releaseWithin fuel) s).remove id

def release (id : Nat) : Store := releaseWithin s.slots.length s id

end Store

end FormSchema
