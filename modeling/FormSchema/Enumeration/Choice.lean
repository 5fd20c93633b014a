import FormSchema.Json.Writer

/-! The values that a field offers to choose from. -/

namespace FormSchema

structure Choice where
  value : Json
  title : String

namespace Choice

/-- Without a title of its own a value is shown as its text. -/
def ofJson (value : Json) : Choice := ⟨value, value.str?.getD value.compact⟩

def toJson (choice : Choice) : Json := .obj [("value", choice.value), ("title", .str choice.title)]

/-- Values with the titles that stand at the same positions; what is no text is no title. -/
def ofLists (values titles : List Json) : List Choice :=
  values.mapIdx fun i value =>
    match (titles[i]?).bind Json.str? with
    | some title => ⟨value, title⟩
    | none => ofJson value

end Choice

end FormSchema
