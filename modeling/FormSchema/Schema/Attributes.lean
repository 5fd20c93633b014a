import FormSchema.Enumeration.Choice
import FormSchema.Kind.Set
import FormSchema.Schema.Keyword
import FormSchema.Schema.Seat
import FormSchema.Schema.Tree

/-! What is known of a schema in a tree of schemas. -/

namespace FormSchema

structure Section where
  /-- The slots on the way from the root. -/
  path : List Slot
  /-- The keywords, those of the subschemas included. -/
  raw : Json
  /-- Whether the items of an array are told apart by variants. -/
  mixed : Bool

namespace Section

def keyword? (s : Section) (name : String) : Option Json := s.raw.field? name

def keywords (s : Section) : Fields := s.raw.obj?.getD []

def tokens (s : Section) : List String := s.path.map Slot.token

def pointer (s : Section) : String := Pointer.join s.tokens

/-- The token under the parent; the root has none. -/
def name? (s : Section) : Option String := s.path.getLast?.map Slot.token

def required (s : Section) : List String :=
  ((s.keyword? "required").bind Json.arr?).getD [] |>.filterMap Json.str?

end Section

structure Attributes extends Section where
  /-- The kinds that the keywords admit. -/
  target : KindSet := .empty
  base : Option Kind := none
  /-- Whether null is admitted. -/
  nullable : Bool := false
  /-- Whether the value is one of a list of choices. -/
  isEnum : Bool := false
  /-- Whether the value is an array of such values. -/
  isEnumArray : Bool := false
  choices : List Choice := []
  /-- The name under which the choices were asked for. -/
  source : Option String := none
  /-- The pointer to the data that the value is picked from. -/
  reference : Option String := none
  /-- What it can be picked from. -/
  candidates : List Json := []
  /-- The name of the field that edits the value. -/
  widget : String := ""
  /-- The properties in the order in which they are shown. -/
  seats : List Seat := []
  /-- The evaluators of the keywords that have one of their own; the first counts. -/
  evaluators : List (Keyword × Evaluator) := []
  /-- The places whose expressions read this one. -/
  observers : List (List String) := []

namespace Attributes

def evaluator (a : Attributes) (k : Keyword) : Evaluator :=
  (a.evaluators.lookup k).getD k.fallback

def isPrimitive (a : Attributes) : Bool :=
  match a.base with
  | none | some .object | some .array => false
  | some _ => true

/-- Whether a value of a kind can be one of this schema. -/
def compatible (a : Attributes) (kind : Kind) : Bool :=
  match a.base with
  | none => true
  | some base => kind.satisfies base || (kind == .null && a.nullable)

end Attributes

abbrev Schema := Tree Attributes

end FormSchema
