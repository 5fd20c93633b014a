import FormSchema.Json.Writer

/-! Keywords with a value of the wrong form. -/

namespace FormSchema

inductive Wanted where
  | object | schema | subschema | schemas | typeNames | array | name
  deriving DecidableEq, Repr

def Wanted.text : Wanted → String
  | .object => "an object"
  | .schema => "a schema"
  | .subschema => "an object or a boolean"
  | .schemas => "an array of schemas"
  | .typeNames => "a string or an array"
  | .array => "an array"
  | .name => "a name"

inductive Misuse where
  | unexpected (wanted : Wanted) (found : Json)
  | unknownType (name : Json)
  | definition (found : Json)
  | positionalItems
  | noArray
  | noPointer

def Misuse.message : Misuse → String
  | .unexpected wanted found => "expected " ++ wanted.text ++ ", found " ++ found.compact
  | .unknownType name => "unknown type " ++ name.compact
  | .definition found => "definition must be an object, found " ++ found.compact
  | .positionalItems => "positional items are not supported"
  | .noArray => "expected an array"
  | .noPointer => "expected a pointer string"

structure InvalidKeyword where
  keyword : String
  misuse : Misuse

def InvalidKeyword.message (e : InvalidKeyword) : String :=
  s!"keyword `{e.keyword}` has an invalid value: " ++ e.misuse.message

end FormSchema
