import FormSchema.Schema.Attributes

/-! The names of the fields that edit values. -/

namespace FormSchema.Widget

def checkMost : Nat := 3

/-- The most choices that are shown as a list to select from. -/
def selectMost : Nat := 20

/-- Text that may be longer has a field of several lines. -/
def lineMost : Nat := 256

def ofCount (count : Nat) : String :=
  if count ≤ checkMost then "check" else if count ≤ selectMost then "select" else "typeahead"

def ofFormat? (format : String) : Option String :=
  match format with
  | "date" => some "date"
  | "time" => some "time"
  | "date-time" => some "datetime"
  | "email" => some "email"
  | "uri" | "url" => some "url"
  | "color" => some "color"
  | "password" => some "password"
  | _ => none

def ofText (a : Attributes) : String :=
  match ((a.keyword? "format").bind Json.str?).bind ofFormat? with
  | some widget => widget
  | none =>
    match (a.keyword? "maxLength").bind Json.natural? with
    | some n => if lineMost < n then "textarea" else "string"
    | none => "string"

def ofBase (a : Attributes) : String :=
  match a.base with
  | none => "unknown"
  | some .string => ofText a
  | some .array => if a.mixed then "variant-array" else Kind.array.name
  | some base => base.name

/-- The field of a schema whose values, or whose items, have `count` choices.  The first rule that
applies counts; without choices as yet the base type decides. -/
def select (a : Attributes) (count : Nat) : String :=
  match (a.keyword? "field").bind Json.str? with
  | some explicit => explicit
  | none =>
    if (a.keyword? "const").isSome then "const"
    else if a.reference.isSome && a.isPrimitive then "reference"
    else if (a.isEnum || a.isEnumArray) && 0 < count then
      if a.isEnumArray then "multi-" ++ ofCount count else ofCount count
    else ofBase a

end FormSchema.Widget
