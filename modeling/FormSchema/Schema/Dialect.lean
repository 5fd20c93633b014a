/-! Dialects of schemas; they differ in where local definitions live. -/

namespace FormSchema

inductive Dialect where
  | draft4 | draft7 | draft2019
  deriving DecidableEq, Repr

namespace Dialect

def all : List Dialect := [draft4, draft7, draft2019]

def name : Dialect → String
  | draft4 => "draft4"
  | draft7 => "draft7"
  | draft2019 => "draft2019"

def ofName? (name : String) : Option Dialect := all.find? fun d => d.name == name

def namespaces : Dialect → List String
  | draft4 | draft7 => ["definitions"]
  | draft2019 => ["$defs", "definitions"]

end Dialect

end FormSchema
