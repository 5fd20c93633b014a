import FormSchema.Schema.Attributes

/-! What there is to report of a compiled schema. -/

namespace FormSchema

namespace Attributes

def expressions (a : Attributes) : Fields :=
  Keyword.all.filterMap fun k => ((a.evaluator k).source).map fun source => (k.name, .str source)

def summary (a : Attributes) : Fields :=
  [("pointer", .str a.pointer), ("field", .str a.widget), ("target", .str a.target.text),
    ("basetype", (a.base.map fun base => Json.str base.name).getD .null),
    ("nullable", .bool a.nullable), ("enum", .arr (a.choices.map Choice.toJson)),
    ("order", .arr (a.seats.map Seat.toJson)),
    ("observers", .ofStrings (a.observers.map Pointer.join)), ("expressions", .obj a.expressions)]

end Attributes

/-- The records of all places, each before those below it. -/
def Schema.summary (schema : Schema) : Json :=
  .arr (schema.labels.map fun a => .obj a.summary)

end FormSchema
