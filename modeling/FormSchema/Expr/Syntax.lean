import FormSchema.Misuse

/-!
Expressions: a small language over JSON values.  It can name only what its scope offers, read other
parts of the document through pointers, and call the built-in functions.
-/

namespace FormSchema

inductive Name where
  | schema | value | parent | key | userData
  | math | json | string | number | boolean | isNaN | parseInt | parseFloat
  deriving DecidableEq, Repr

namespace Name

def all : List Name :=
  [schema, value, parent, key, userData, math, json, string, number, boolean, isNaN, parseInt,
    parseFloat]

def source : Name → String
  | schema => "schema"
  | value => "value"
  | parent => "parent"
  | key => "key"
  | userData => "userdata"
  | math => "Math"
  | json => "JSON"
  | string => "String"
  | number => "Number"
  | boolean => "Boolean"
  | isNaN => "isNaN"
  | parseInt => "parseInt"
  | parseFloat => "parseFloat"

def label : Name → String
  | schema => "Schema"
  | value => "Value"
  | parent => "Parent"
  | key => "Key"
  | userData => "UserData"
  | math => "Math"
  | json => "Json"
  | string => "String"
  | number => "Number"
  | boolean => "Boolean"
  | isNaN => "IsNaN"
  | parseInt => "ParseInt"
  | parseFloat => "ParseFloat"

def ofSource? (source : String) : Option Name := all.find? fun name => name.source == source

end Name

inductive UnaryOp where
  | not | neg | plus
  deriving DecidableEq, Repr

inductive BinaryOp where
  | coalesce | or | and
  | looseEq | looseNe | strictEq | strictNe
  | lt | le | gt | ge
  | add | sub | mul | div | rem
  deriving DecidableEq, Repr

/-- How tightly an operator binds; all of them group to the left. -/
def BinaryOp.precedence : BinaryOp → Nat
  | .coalesce => 1
  | .or => 2
  | .and => 3
  | .looseEq | .looseNe | .strictEq | .strictNe => 4
  | .lt | .le | .gt | .ge => 5
  | .add | .sub => 6
  | .mul | .div | .rem => 7

inductive Expr where
  | literal (value : Json)
  | name (name : Name)
  /-- The value at a pointer, written in backquotes after a dollar sign. -/
  | deref (pointer : String)
  | array (items : List Expr)
  | member (object : Expr) (key : String)
  | index (object key : Expr)
  | call (callee : Expr) (args : List Expr)
  | unary (op : UnaryOp) (operand : Expr)
  | binary (op : BinaryOp) (left right : Expr)
  | conditional (test yes no : Expr)

namespace Expr

mutual

/-- The pointers that an expression reads, from left to right. -/
def derefs : Expr → List String
  | .literal _ | .name _ => []
  | .deref pointer => [pointer]
  | .array items => derefsList items
  | .member object _ => object.derefs
  | .index object key => object.derefs ++ key.derefs
  | .call callee args => callee.derefs ++ derefsList args
  | .unary _ operand => operand.derefs
  | .binary _ left right => left.derefs ++ right.derefs
  | .conditional test yes no => test.derefs ++ yes.derefs ++ no.derefs

def derefsList : List Expr → List String
  | [] => []
  | e :: es => e.derefs ++ derefsList es

end

end Expr

end FormSchema
