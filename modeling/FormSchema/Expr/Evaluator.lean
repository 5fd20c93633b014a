import FormSchema.Expr.Eval
import FormSchema.Expr.Template

/-! Compiled keyword values: constants, expressions and templates that can always be evaluated. -/

namespace FormSchema

/-- What an evaluator yields: text, a truth value or null, or any value. -/
inductive Flavor where
  | template | boolean | generic
  deriving DecidableEq, Repr

/-- What stands in for a value when evaluation fails. -/
def Flavor.onFailure : Flavor → Json
  | .template => .str ""
  | .boolean => .bool false
  | .generic => .null

inductive Evaluator.Body where
  | constant (value : Json)
  | expression (e : Expr)
  | template (parts : List Part)

structure Evaluator where
  flavor : Flavor
  /-- The text it was compiled from; constants have none. -/
  source : Option String
  body : Evaluator.Body

namespace Evaluator

def constant (flavor : Flavor) (value : Json) : Evaluator := ⟨flavor, none, .constant value⟩

def constant? (e : Evaluator) : Option Json :=
  match e.body with
  | .constant value => some value
  | _ => none

/-- The pointers that an evaluator reads, from left to right. -/
def derefs (e : Evaluator) : List String :=
  match e.body with
  | .constant _ => []
  | .expression e => e.derefs
  | .template parts => Template.derefs parts

def ofSource (flavor : Flavor) (source : String) : Except SyntaxError Evaluator := do
  return ⟨flavor, some source, .expression (← Expr.parse source)⟩

def ofTemplate (raw : Json) : Except SyntaxError Evaluator :=
  match raw with
  | .str source => do return ⟨.template, some source, .template (← Template.parse source)⟩
  | other => .error ⟨.notTemplate other, 0⟩

/-- Truth values and null are constants. -/
def ofBoolean (raw : Json) : Except SyntaxError Evaluator :=
  match raw with
  | .bool _ | .null => .ok (constant .boolean raw)
  | .str source => ofSource .boolean source
  | other => .error ⟨.notBoolean other, 0⟩

def fragment (raw : Json) : Except SyntaxError String :=
  match raw with
  | .str s => .ok s
  | other => .error ⟨.notFragment other, 0⟩

/-- Truth values, null and numbers are constants; an array is the source that its items make when
they are put together. -/
def ofGeneric (raw : Json) : Except SyntaxError Evaluator :=
  match raw with
  | .bool _ | .null | .num _ => .ok (constant .generic raw)
  | .str source => ofSource .generic source
  | .arr fragments => do ofSource .generic (String.join (← fragments.mapM fragment))
  | .obj _ => .error ⟨.notGeneric, 0⟩

def compile (flavor : Flavor) (raw : Json) : Except SyntaxError Evaluator :=
  match flavor with
  | .template => ofTemplate raw
  | .boolean => ofBoolean raw
  | .generic => ofGeneric raw

/-- The text of a part; null is shown as nothing. -/
def partText (scope : Scope) : Part → Except EvalError String
  | .text text => .ok text
  | .hole e => do
    let value ← e.eval scope
    return if value.isNull then "" else value.display

/-- The value of an expression as its flavor wants it.  Null is no truth value and stays. -/
def coerce (flavor : Flavor) (value : Json) : Json :=
  match flavor with
  | .boolean => if value.isNull then .null else .bool value.truthy
  | .template => .str value.display
  | .generic => value

def tryEval (e : Evaluator) (scope : Scope) : Except EvalError Json :=
  match e.body with
  | .constant value => .ok value
  | .template parts => do return .str (String.join (← parts.mapM (partText scope)))
  | .expression expr => do return coerce e.flavor (← expr.eval scope)

/-- The value, with a substitute if there is none. -/
def eval (e : Evaluator) (scope : Scope) : Json :=
  match e.tryEval scope with
  | .ok value => value
  | .error _ => e.flavor.onFailure

/-- The truth value, or none for null. -/
def evalBool (e : Evaluator) (scope : Scope) : Option Bool :=
  let value := e.eval scope
  if value.isNull then none else some value.truthy

end Evaluator

end FormSchema
