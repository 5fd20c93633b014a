import FormSchema.Schema.Attributes

/-! The plain schema that a compiled one stands for, and the values that new data start with. -/

namespace FormSchema

namespace Attributes

/-- The `type` of the kinds of a set: one name, or a list of them. -/
def typeKeyword (target : KindSet) : Json :=
  match target.toList with
  | [only] => .str only.name
  | kinds => .ofStrings (kinds.map Kind.name)

def withType (a : Attributes) (keywords : Fields) : Fields :=
  if a.target.toList.isEmpty then keywords else keywords.set "type" (typeKeyword a.target)

def withProperties (children : List (Slot × Json)) (keywords : Fields) : Fields :=
  match children.filterMap fun
      | (.property name, child) => some (name, child)
      | _ => none with
  | [] => keywords
  | properties => keywords.set "properties" (.obj properties)

def withItems (a : Attributes) (children : List (Slot × Json)) (keywords : Fields) : Fields :=
  if a.mixed then
    keywords.set "items" (.obj [("oneOf", .arr (children.filterMap fun
      | (.variant _, child) => some child
      | _ => none))])
  else
    match children.lookup .item with
    | some item => keywords.set "items" item
    | none => keywords

def normal (a : Attributes) (children : List (Slot × Json)) : Json :=
  .obj (a.withItems children (withProperties children (a.withType a.keywords)))

/-- The value that a new instance starts with, given those of its children. -/
def initial (a : Attributes) (children : List (Slot × Json)) : Json :=
  match a.keyword? "default", a.keyword? "const" with
  | some value, _ => value
  | none, some value => value
  | none, none =>
    if a.nullable then .null
    else
      match a.base with
      | some .object => .obj (children.filterMap fun
          | (.property name, child) => some (name, child)
          | _ => none)
      | some .array => .arr []
      | some .string => .str ""
      | some .integer | some .number => .ofNat 0
      | some .boolean => .bool false
      | some .null | none => .null

end Attributes

namespace Tree

variable {α β : Type}

mutual

/-- What a label makes of itself and of what its children have become. -/
def fold (f : α → List (Slot × β) → β) : Tree α → β
  | .node label children => f label (foldChildren f children)

def foldChildren (f : α → List (Slot × β) → β) : List (Slot × Tree α) → List (Slot × β)
  | [] => []
  | (slot, t) :: rest => (slot, t.fold f) :: foldChildren f rest

end

end Tree

namespace Schema

/-- The schema with its references inlined, its types inferred and its variants complete. -/
def normal (schema : Schema) : Json := schema.fold Attributes.normal

/-- The value that a new instance of a schema starts with. -/
def initial (schema : Schema) : Json := schema.fold Attributes.initial

end Schema

end FormSchema
