import FormSchema.Document.Evaluation
import FormSchema.Schema.Compilation

/-!
Linking: which schema describes which node.  The root is described by the root schema.  Below a node
whose kind fits its schema, a property is described by its declaration, an item by the schema of all
items or by the first variant whose `case` is not false for it; everything else stays unlinked.
Values decide about links, links do not.
-/

namespace FormSchema

/-- What expressions need besides the document. -/
structure Linking where
  document : Document
  userData : Json

namespace Linking

/-- The variants whose `case` is true or null for a place, in their order. -/
def matching (l : Linking) (variants : List Schema) (place : Place) : List Schema :=
  variants.filter fun variant =>
    let verdict := l.document.evaluateAs l.userData variant.label place .case
    verdict.isNull || verdict.truthy

def childSchema? (l : Linking) (schema : Schema) (child : Place) : Option Schema :=
  match child.key? with
  | none => none
  | some (.name name) => schema.at? (.property name)
  | some (.index _) =>
    if schema.label.mixed then (l.matching schema.variants child).head? else schema.at? .item

/-- The schema of a child, if the node above has one that fits its kind. -/
def below? (l : Linking) (schema : Option Schema) (parent : Node) (child : Place) :
    Option Schema :=
  schema.bind fun schema =>
    if schema.label.compatible parent.kind then l.childSchema? schema child else none

mutual

/-- A node with links for itself and everything below, given the schema for itself. -/
def link (l : Linking) (schema : Option Schema) (above : List (Key × Node)) : Node → Node
  | .leaf tag value => .leaf { tag with schema } value
  | .list tag items =>
    .list { tag with schema } (linkItems l schema (.list tag items) above 0 items)
  | .record tag fields =>
    .record { tag with schema } (linkFields l schema (.record tag fields) above fields)

def linkItems (l : Linking) (schema : Option Schema) (parent : Node)
    (above : List (Key × Node)) (i : Nat) : List Node → List Node
  | [] => []
  | item :: items =>
    let path := (.index i, parent) :: above
    link l (l.below? schema parent ⟨item, path⟩) path item ::
      linkItems l schema parent above (i + 1) items

def linkFields (l : Linking) (schema : Option Schema) (parent : Node)
    (above : List (Key × Node)) : List (String × Node) → List (String × Node)
  | [] => []
  | (key, item) :: fields =>
    let path := (.name key, parent) :: above
    (key, link l (l.below? schema parent ⟨item, path⟩) path item) ::
      linkFields l schema parent above fields

end

end Linking

inductive LinkError.Cause where
  | wrongKind (expected : KindSet) (found : Kind)
  | noSchema
  deriving DecidableEq

def LinkError.Cause.message : LinkError.Cause → String
  | .wrongKind expected found => "expected " ++ expected.text ++ ", found " ++ found.name
  | .noSchema => "schema node is missing"

structure LinkError where
  pointer : String
  cause : LinkError.Cause
  deriving DecidableEq

def LinkError.message (e : LinkError) : String :=
  "at `" ++ e.pointer ++ "`: " ++ e.cause.message

namespace Place

/-- The complaint about a place whose kind does not fit its schema. -/
def mismatch? (p : Place) : Option LinkError :=
  match p.node.schema? with
  | none => none
  | some schema =>
    if schema.label.compatible p.node.kind then none
    else some ⟨p.pointer, .wrongKind schema.label.target p.node.kind⟩

/-- The complaints about a subtree, in the order of the document. -/
def mismatches (p : Place) : List LinkError := p.subtree.filterMap mismatch?

/-- The variants of the array that holds a place, if its items are told apart by variants. -/
def variants? (p : Place) : Option (List Schema) :=
  match p.parent? with
  | none => none
  | some parent =>
    match parent.node, parent.node.schema? with
    | .list _ _, some schema => if schema.label.mixed then some schema.variants else none
    | _, _ => none

end Place

namespace Document

def setAt (d : Document) (place : Place) (node : Node) : Document :=
  { d with root := Place.rebuild node place.above }

def link (d : Document) (c : Compiled) : Document × List LinkError :=
  let root := Linking.link ⟨d, c.userData⟩ (some c.schema) [] d.root
  ({ d with root }, Place.mismatches ⟨root, []⟩)

/-- Gives a place a schema and links everything below it. -/
def linkAt (d : Document) (c : Compiled) (place : Place) (schema : Option Schema) :
    Document × List LinkError :=
  let node := Linking.link ⟨d, c.userData⟩ schema place.above place.node
  (d.setAt place node, Place.mismatches ⟨node, place.above⟩)

/-- Links a subtree anew.  An item among variants picks its variant again, any other node keeps its
schema. -/
def relink (d : Document) (c : Compiled) (id : Nat) : Document × List LinkError :=
  match d.find? id with
  | none => (d, [⟨"", .noSchema⟩])
  | some place =>
    match place.variants?, place.node.schema? with
    | some variants, _ =>
      d.linkAt c place ((Linking.matching ⟨d, c.userData⟩ variants place).head?)
    | none, some schema => d.linkAt c place (some schema)
    | none, none => (d, [⟨place.pointer, .noSchema⟩])

end Document

end FormSchema
