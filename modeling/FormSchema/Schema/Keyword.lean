import FormSchema.Expr.Evaluator

/-! The keywords whose values are expressions. -/

namespace FormSchema

inductive Keyword where
  | abstract | visible | readonly | requiredWhen | collapsed | filter | case
  | orderBy | expression | change
  deriving DecidableEq, Repr

namespace Keyword

def all : List Keyword :=
  [abstract, visible, readonly, requiredWhen, collapsed, filter, case, orderBy, expression, change]

theorem mem_all (k : Keyword) : k ∈ all := by cases k <;> decide

def name : Keyword → String
  | abstract => "abstract"
  | visible => "visible"
  | readonly => "readonly"
  | requiredWhen => "requiredWhen"
  | collapsed => "collapsed"
  | filter => "filter"
  | case => "case"
  | orderBy => "orderBy"
  | expression => "expression"
  | change => "change"

def ofName? (name : String) : Option Keyword := all.find? fun k => k.name == name

def flavor : Keyword → Flavor
  | abstract => .template
  | orderBy | expression | change => .generic
  | _ => .boolean

/-- The value where a schema does not have the keyword. -/
def unset : Keyword → Json
  | abstract => .str ""
  | visible | filter | case => .bool true
  | readonly | requiredWhen | collapsed => .bool false
  | orderBy | expression | change => .null

/-- What is evaluated where a schema does not have the keyword. -/
def fallback (k : Keyword) : Evaluator := .constant k.flavor k.unset

end Keyword

end FormSchema
