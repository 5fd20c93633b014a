import FormSchema.Document.Node

/-!
Documents and the places in them.  A place is a node together with the nodes around it; pointers
lead from place to place.
-/

namespace FormSchema

/-- A node and the nodes around it, from its parent up, each with the key of the step down. -/
structure Place where
  node : Node
  above : List (Key × Node)

namespace Place

def value (p : Place) : Json := p.node.value

def id (p : Place) : Nat := p.node.id

def ofAbove : List (Key × Node) → List Place
  | [] => []
  | (_, node) :: above => ⟨node, above⟩ :: ofAbove above

def ancestors (p : Place) : List Place := ofAbove p.above

def parent? (p : Place) : Option Place := p.ancestors.head?

/-- The key under the parent; the root has none. -/
def key? (p : Place) : Option Key := p.above.head?.map (·.1)

def tokens (p : Place) : List String := (p.above.map fun step => step.1.token).reverse

def pointer (p : Place) : String := Pointer.join p.tokens

def down (p : Place) (child : Key × Node) : Place := ⟨child.2, (child.1, p.node) :: p.above⟩

def children (p : Place) : List Place := p.node.children.map p.down

def child? (p : Place) (token : String) : Option Place := (p.node.child? token).map p.down

mutual

/-- The places of a subtree, each before those below it. -/
def below (above : List (Key × Node)) : Node → List Place
  | .leaf tag value => [⟨.leaf tag value, above⟩]
  | .list tag items => ⟨.list tag items, above⟩ :: belowItems (.list tag items) above 0 items
  | .record tag fields =>
    ⟨.record tag fields, above⟩ :: belowFields (.record tag fields) above fields

def belowItems (parent : Node) (above : List (Key × Node)) (i : Nat) : List Node → List Place
  | [] => []
  | item :: items =>
    below ((.index i, parent) :: above) item ++ belowItems parent above (i + 1) items

def belowFields (parent : Node) (above : List (Key × Node)) : List (String × Node) → List Place
  | [] => []
  | (key, item) :: fields =>
    below ((.name key, parent) :: above) item ++ belowFields parent above fields

end

/-- The places from this one down, each before those below it. -/
def subtree (p : Place) : List Place := below p.above p.node

/-- The root that the tree has with another node at the end of a path. -/
def rebuild (node : Node) : List (Key × Node) → Node
  | [] => node
  | (key, parent) :: above => rebuild (parent.put key node) above

end Place

structure Document where
  root : Node
  /-- The identities from here on have never been given to a node. -/
  next : Nat

namespace Document

def ofJson (value : Json) : Document := ⟨.ofJson ⟨0, none⟩ 1 value, value.size⟩

def value (d : Document) : Json := d.root.value

def rootPlace (d : Document) : Place := ⟨d.root, []⟩

def places (d : Document) : List Place := d.rootPlace.subtree

/-- The place of the node with an identity; only nodes that are still in the document have one. -/
def find? (d : Document) (id : Nat) : Option Place := d.places.find? fun p => p.id == id

/-- The place of a node.  One that is not in the document any more stands alone and is null. -/
def place (d : Document) (id : Nat) : Place :=
  (d.find? id).getD ⟨.leaf ⟨id, none⟩ .null, []⟩

def navigation (d : Document) : Pointer.Navigation Place where
  root := d.rootPlace
  ancestors := Place.ancestors
  child? := Place.child?

def resolve (d : Document) (start : Place) (pointer : String) :
    Except Pointer.Error (Option Place) :=
  Pointer.resolveText d.navigation start pointer

def byPointer? (d : Document) (pointer : String) : Option Place :=
  match d.resolve d.rootPlace pointer with
  | .ok place => place
  | .error _ => none

/-- The identities in use, in increasing order. -/
def ids (d : Document) : List Nat := (d.places.map Place.id).mergeSort

def deref (d : Document) (start : Place) (pointer : String) :
    Except Pointer.Error (Option Json) := do
  return (← d.resolve start pointer).map Place.value

end Document

end FormSchema
