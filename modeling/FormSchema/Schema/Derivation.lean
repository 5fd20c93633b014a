import FormSchema.Schema.Reference
import FormSchema.Schema.Widget

/-! What is known of a schema through its parent, its children and the data. -/

namespace FormSchema.Derivation

/-- The item schema of an array of values with choices. -/
def enumItem? (p : Tree.Place Attributes) : Option Attributes :=
  if p.label.base = some .array then
    match p.tree.at? .item with
    | some item => if item.label.isEnum then some item.label else none
    | none => none
  else none

/-- Whether the parent says that the property has to be there. -/
def isRequired (p : Tree.Place Attributes) : Bool :=
  match p.parent?, p.label.name? with
  | some parent, some name => parent.label.required.contains name
  | _, _ => false

/-- The evaluators that come without an expression. -/
def seeded (p : Tree.Place Attributes) : List (Keyword × Evaluator) :=
  if isRequired p then [(.requiredWhen, .constant Keyword.requiredWhen.flavor (.bool true))] else []

def declaration (name : String) (a : Attributes) : Declaration where
  name := name
  tab := (a.keyword? "tab").bind Json.str?
  group := (a.keyword? "group").bind Json.str?

def seats (t : Schema) : List Seat :=
  Seat.arrange (t.properties.map fun (name, child) => declaration name child.label)

/-- What follows for a place.  A schema with a malformed reference gets no field and no order. -/
def derive (data : Option Json) (p : Tree.Place Attributes) : Attributes × Option Problem :=
  let item := enumItem? p
  let a := { p.label with isEnumArray := item.isSome, evaluators := seeded p }
  match Reference.ofAttributes data a with
  | .error cause => (a, some ⟨.reference, a.pointer, cause⟩)
  | .ok picked =>
    let a := { a with
      reference := picked.map (·.1)
      candidates := (picked.map (·.2)).getD [] }
    let count := (item.getD a).choices.length
    ({ a with widget := Widget.select a count, seats := seats p.tree }, none)

end FormSchema.Derivation
