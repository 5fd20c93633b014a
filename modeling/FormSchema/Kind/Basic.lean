import FormSchema.Json.Basic

/-! The kinds of values that a schema speaks of. -/

namespace FormSchema

/-- Every integer is a number as well. -/
inductive Kind where
  | null | boolean | object | array | number | string | integer
  deriving DecidableEq, Repr

namespace Kind

/-- The kinds in the order in which sets of them are listed. -/
def all : List Kind := [null, boolean, object, array, number, string, integer]

theorem mem_all (k : Kind) : k ∈ all := by cases k <;> decide

def name : Kind → String
  | null => "null"
  | boolean => "boolean"
  | object => "object"
  | array => "array"
  | number => "number"
  | string => "string"
  | integer => "integer"

def ofName? (name : String) : Option Kind := all.find? fun k => k.name == name

/-- The kind of a value; a number without a fraction is an integer, however it is written. -/
def ofJson : Json → Kind
  | .null => null
  | .bool _ => boolean
  | .num n => if n.isWhole then integer else number
  | .str _ => string
  | .arr _ => array
  | .obj _ => object

/-- Whether a value of the first kind is also one of the second. -/
def satisfies (k wanted : Kind) : Bool := k == wanted || (k == integer && wanted == number)

theorem satisfies_self (k : Kind) : k.satisfies k = true := by cases k <;> rfl

end Kind

end FormSchema
