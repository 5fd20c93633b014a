import FormSchema.Pointer

/-!
Trees whose children hang in slots.  A tree of schemas has a slot for each property, and for the
items of an array either one slot or one for each variant.  A place is a subtree together with the
trees around it; to relabel a tree by its places changes no slot.
-/

namespace FormSchema

/-- Where a schema hangs in its parent: it is the schema of a property, of every item, or of those
items that a variant covers. -/
inductive Slot where
  | property (name : String)
  | item
  | variant (index : Nat)
  deriving DecidableEq, Repr

def Slot.token : Slot → String
  | .property name => name
  | .item => "*"
  | .variant index => "*" ++ index.repr

inductive Tree (α : Type) where
  | node (label : α) (children : List (Slot × Tree α))

namespace Tree

variable {α β : Type}

def label : Tree α → α
  | .node label _ => label

def children : Tree α → List (Slot × Tree α)
  | .node _ children => children

def at? (t : Tree α) (slot : Slot) : Option (Tree α) := t.children.lookup slot

/-- The properties with their names, in the order of their declaration. -/
def properties (t : Tree α) : List (String × Tree α) :=
  t.children.filterMap fun
    | (.property name, child) => some (name, child)
    | _ => none

def variants (t : Tree α) : List (Tree α) :=
  t.children.filterMap fun
    | (.variant _, child) => some child
    | _ => none

def variantIndex? (token : String) : Option Nat :=
  match token.toList with
  | '*' :: digits => Number.index? digits
  | _ => none

/-- The child that a token names.  Properties come first; the schema of all items answers to every
index as well. -/
def child? (t : Tree α) (token : String) : Option (Tree α) :=
  match t.at? (.property token), t.at? .item with
  | some child, _ => some child
  | none, some item =>
    if token = "*" ∨ (Number.index? token.toList).isSome then some item else none
  | none, none => (variantIndex? token).bind fun i => t.at? (.variant i)

mutual

def labels : Tree α → List α
  | .node label children => label :: childLabels children

def childLabels : List (Slot × Tree α) → List α
  | [] => []
  | (_, t) :: rest => t.labels ++ childLabels rest

end

/-- A subtree and the trees around it, from its parent up. -/
structure Place (α : Type) where
  tree : Tree α
  above : List (Tree α)

namespace Place

def label (p : Place α) : α := p.tree.label

/-- The places of a subtree's ancestors, from the parent up. -/
def ofAbove : List (Tree α) → List (Place α)
  | [] => []
  | tree :: above => ⟨tree, above⟩ :: ofAbove above

def ancestors (p : Place α) : List (Place α) := ofAbove p.above

def parent? (p : Place α) : Option (Place α) := p.ancestors.head?

/-- The parent of a place; the root stands for its own. -/
def container (p : Place α) : Place α := p.parent?.getD p

def child? (p : Place α) (token : String) : Option (Place α) :=
  (p.tree.child? token).map fun child => ⟨child, p.tree :: p.above⟩

end Place

def root (t : Tree α) : Place α := ⟨t, []⟩

def navigation (t : Tree α) : Pointer.Navigation (Place α) where
  root := t.root
  ancestors := Place.ancestors
  child? := Place.child?

def byPointer? (t : Tree α) (pointer : String) : Option (Place α) :=
  match Pointer.resolveText t.navigation t.root pointer with
  | .ok place => place
  | .error _ => none

mutual

/-- Gives every node the label that belongs to its place. -/
def extendAt (f : Place α → β) (above : List (Tree α)) : Tree α → Tree β
  | .node label children =>
    .node (f ⟨.node label children, above⟩)
      (extendChildren f (.node label children :: above) children)

def extendChildren (f : Place α → β) (above : List (Tree α)) :
    List (Slot × Tree α) → List (Slot × Tree β)
  | [] => []
  | (slot, t) :: rest => (slot, extendAt f above t) :: extendChildren f above rest

end

def extend (f : Place α → β) (t : Tree α) : Tree β := extendAt f [] t

def map (f : α → β) (t : Tree α) : Tree β := t.extend fun place => f place.label

def places (t : Tree α) : List (Place α) := (t.extend id).labels

end Tree

end FormSchema
