import FormSchema.Document.Basic

/-! The values that the expressions of a schema have in a document. -/

namespace FormSchema.Document

/-- The scope of a value under a key of a container.  Pointers start at the container, or at the
root for the root itself. -/
def scope (d : Document) (userData : Json) (schema : Attributes) (container : Option Place)
    (key value : Json) : Scope where
  schema := schema.raw
  value := value
  parent := (container.map Place.value).getD .null
  key := key
  userData := userData
  deref := d.deref (container.getD d.rootPlace)

def evaluateAs (d : Document) (userData : Json) (schema : Attributes) (place : Place)
    (keyword : Keyword) : Json :=
  (schema.evaluator keyword).eval
    (d.scope userData schema place.parent? ((place.key?.map Key.toJson).getD .null) place.value)

/-- A keyword of the schema that describes the value at a place; without one, the value that the
keyword has when it is not there. -/
def evaluate (d : Document) (userData : Json) (place : Place) (keyword : Keyword) : Json :=
  match place.node.schema? with
  | some schema => d.evaluateAs userData schema.label place keyword
  | none => keyword.unset

/-- A keyword of some schema for a key of a place, whether or not there is a value under it. -/
def evaluateAt (d : Document) (userData : Json) (schema : Attributes) (parent : Place)
    (key : String) (keyword : Keyword) : Json :=
  let value := ((parent.child? key).map Place.value).getD .null
  (schema.evaluator keyword).eval (d.scope userData schema (some parent) (.str key) value)

end FormSchema.Document
