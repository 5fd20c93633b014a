import FormSchema.Json.Basic
import FormSchema.Pointer
import FormSchema.Schema.Attributes
import FormSchema.Schema.Problem

/-! Values that are picked from another part of the data. -/

namespace FormSchema.Reference

/-- An array index in its only spelling, without a sign and without needless zeros. -/
def strictIndex? (token : List Char) : Option Nat :=
  match token with
  | '+' :: _ => none
  | '0' :: _ :: _ => none
  | _ => Number.index? token

def child? (value : Json) (token : String) : Option Json :=
  match value with
  | .obj fields => fields.lookup token
  | .arr items => (strictIndex? token.toList).bind (items[·]?)
  | _ => none

def at? (value : Json) (tokens : List String) : Option Json := tokens.foldlM child? value

/-- What can be picked at a place of the data: the items of an array, the keys of an object, or the
value itself. -/
def candidates (data : Json) (tokens : List String) : List Json :=
  match at? data tokens with
  | none => []
  | some (.arr items) => items
  | some (.obj fields) => fields.map fun field => .str field.1
  | some other => [other]

/-- The pointer that a schema picks its values from, and what can be picked there. -/
def ofAttributes (data : Option Json) (a : Attributes) :
    Except Problem.Cause (Option (String × List Json)) :=
  match a.keyword? "reference" with
  | none => .ok none
  | some (.str source) =>
    match Pointer.parse source with
    | .error e => .error (.badPointer e)
    | .ok pointer => .ok (some (source, (data.map (candidates · pointer.tokens)).getD []))
  | some _ => .error (.invalidKeyword ⟨"reference", .noPointer⟩)

/-- A relative pointer cannot say what values are picked from. -/
def refusal? (a : Attributes) : Option Refusal :=
  match a.keyword? "reference" with
  | some (.str source) =>
    match Pointer.parse source with
    | .ok (.relative _ _) => some (.relativeReference source)
    | _ => none
  | _ => none

end FormSchema.Reference
