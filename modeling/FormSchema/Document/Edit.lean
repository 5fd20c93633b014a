import FormSchema.Document.Dependents
import FormSchema.Document.Link
import FormSchema.Schema.Normal

/-!
Changes of a document.  A change touches one node, keeps the identities of all others, and links
anew what it has put in.
-/

namespace FormSchema

inductive EditError where
  | rootChange
  | unknownNode (id : Nat)
  | noArray (pointer : String)
  deriving DecidableEq, Repr

def EditError.message : EditError → String
  | .rootChange => "the data root cannot be replaced or detached"
  | .unknownNode id => s!"no data node with id {id}"
  | .noArray pointer => s!"data node `{pointer}` is not an array"

namespace Place

def joinLevels : List (List Place) → List (List Place) → List (List Place)
  | [], levels => levels
  | levels, [] => levels
  | level :: levels, more :: rest => (level ++ more) :: joinLevels levels rest

mutual

def levelsAt (above : List (Key × Node)) : Node → List (List Place)
  | .leaf tag value => [[⟨.leaf tag value, above⟩]]
  | .list tag items => [⟨.list tag items, above⟩] :: levelsItems (.list tag items) above 0 items
  | .record tag fields =>
    [⟨.record tag fields, above⟩] :: levelsFields (.record tag fields) above fields

def levelsItems (parent : Node) (above : List (Key × Node)) (i : Nat) :
    List Node → List (List Place)
  | [] => []
  | item :: items =>
    joinLevels (levelsAt ((.index i, parent) :: above) item)
      (levelsItems parent above (i + 1) items)

def levelsFields (parent : Node) (above : List (Key × Node)) :
    List (String × Node) → List (List Place)
  | [] => []
  | (key, item) :: fields =>
    joinLevels (levelsAt ((.name key, parent) :: above) item) (levelsFields parent above fields)

end

/-- The places from this one down, level by level. -/
def breadthFirst (p : Place) : List Place := (levelsAt p.above p.node).flatten

end Place

namespace Document

/-- The place of a node that can be replaced or taken away. -/
def removable (d : Document) (id : Nat) : Except EditError Place :=
  if id = d.root.id then .error .rootChange
  else
    match d.find? id with
    | none => .error (.unknownNode id)
    | some place => .ok place

/-- The nodes whose expressions read some node of a subtree, each once. -/
def affected (d : Document) (id : Nat) : List Nat :=
  match d.find? id with
  | none => []
  | some place => (place.breadthFirst.flatMap d.dependents).eraseDups

/-- Gives a node another value, and tells which nodes have to be evaluated again.  The node keeps
its identity and its parts get new ones. -/
def set (d : Document) (c : Compiled) (id : Nat) (value : Json) :
    Except EditError (Document × List Nat) := do
  let place ← d.removable id
  let node := Node.ofJson place.node.tag d.next value
  let d := { d.setAt place node with next := d.next + (value.size - 1) }
  let (d, _) := d.relink c id
  return (d, d.affected id)

def detach (d : Document) (id : Nat) : Except EditError (Document × Json) := do
  let place ← d.removable id
  match place.above with
  | [] => throw .rootChange
  | (key, parent) :: above => return (d.setAt ⟨parent, above⟩ (parent.drop key), place.value)

/-- Appends a value to an array, and gives the identity of the new item. -/
def push (d : Document) (c : Compiled) (array : Nat) (value : Json) :
    Except EditError (Document × Nat) :=
  match d.find? array with
  | none => .error (.unknownNode array)
  | some place =>
    match place.node with
    | .list tag items =>
      let item := Node.ofJson ⟨d.next, none⟩ (d.next + 1) value
      let grown := { d.setAt place (.list tag (items ++ [item])) with next := d.next + value.size }
      let linked := if tag.schema.isSome then (grown.relink c array).1 else grown
      .ok (linked, d.next)
    | _ => .error (.noArray place.pointer)

def newItem (d : Document) (array : Nat) : Json :=
  let schema := do
    let schema ← (← d.find? array).node.schema?
    if schema.label.mixed then schema.variants.head? else schema.at? .item
  (schema.map Schema.initial).getD .null

def pushNew (d : Document) (c : Compiled) (array : Nat) : Except EditError (Document × Nat) :=
  d.push c array (d.newItem array)

end Document

end FormSchema
