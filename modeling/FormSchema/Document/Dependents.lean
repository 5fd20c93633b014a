import FormSchema.Document.Basic

/-!
Which nodes have to be evaluated again when one has changed.  A schema knows the places of the
schemas whose expressions read it.  Such a place stands for many nodes; along the part that it
shares with the schema of the changed node, it stands for those on the way to that node.
-/

namespace FormSchema.Place

def schemaName? (p : Place) : Option String := p.node.schema?.bind fun schema => schema.label.name?

/-- The children that one token of a schema pointer stands for: all items, those items that a
variant describes, or one child. -/
def fan (token : String) (p : Place) : List Place :=
  match token.toList with
  | '*' :: rest =>
    match p.node with
    | .list _ _ => p.children.filter fun item => rest.isEmpty || item.schemaName? == some token
    | _ => []
  | _ => (p.child? token).toList

/-- The nodes that the rest of a schema pointer stands for. -/
def fanOut (places : List Place) : List String → List Place
  | [] => places
  | token :: tokens => fanOut (places.flatMap (fan token)) tokens

/-- The nodes that a schema pointer stands for, as seen from a node: as long as the pointer agrees
with the one of the node's schema, the way to the node is followed. -/
def follow (places : List Place) : (schema data observer : List String) → List Place
  | s :: schema, d :: data, o :: observer =>
    if s = o then follow (places.filterMap fun place => place.child? d) schema data observer
    else fanOut places (o :: observer)
  | _, _, observer => fanOut places observer

end FormSchema.Place

namespace FormSchema.Document

/-- The nodes whose expressions read the node at a place, each once. -/
def dependents (d : Document) (changed : Place) : List Nat :=
  match changed.node.schema? with
  | none => []
  | some schema =>
    (schema.label.observers.flatMap fun observer =>
      (Place.follow [d.rootPlace] schema.label.tokens changed.tokens observer).map
        Place.id).eraseDups

end FormSchema.Document
