import FormSchema.Expr.Builtin

/-! The value of an expression in a scope. -/

namespace FormSchema

/-- What an expression can see: five values, and the rest of the document through pointers. -/
structure Scope where
  schema : Json
  value : Json
  parent : Json
  key : Json
  userData : Json
  deref : String → Except Pointer.Error (Option Json)

namespace Scope

/-- The value of a name; functions and namespaces have none. -/
def get (scope : Scope) : Name → Except EvalError Json
  | .schema => .ok scope.schema
  | .value => .ok scope.value
  | .parent => .ok scope.parent
  | .key => .ok scope.key
  | .userData => .ok scope.userData
  | name => .error (.notValue name)

end Scope

namespace Expr

/-- The part of a value with a name: a field, an item or character by its index, or a length. -/
def memberOf (object : Json) (key : String) : Except EvalError Json :=
  match object with
  | .null => .error (.memberOfNull key)
  | .obj fields => .ok ((fields.lookup key).getD .null)
  | .arr items =>
    if key = "length" then .ok (.ofNat items.length)
    else .ok (((Number.index? key.toList).bind (items[·]?)).getD .null)
  | .str s =>
    let chars := s.toList
    if key = "length" then .ok (.ofNat chars.length)
    else
      .ok ((((Number.index? key.toList).bind (chars[·]?)).map fun c =>
        Json.str (String.singleton c)).getD .null)
  | .bool _ | .num _ => .ok .null

def indexOf (object key : Json) : Except EvalError Json := memberOf object key.display

def unaryOf (op : UnaryOp) (operand : Json) : Json :=
  match op with
  | .not => .bool !operand.truthy
  | .neg => Builtin.ofNumber? (operand.toNumber?.map (-·))
  | .plus => Builtin.ofNumber? operand.toNumber?

/-- A computation on two numbers; null unless both operands are numbers. -/
def arithmetic (f : Float → Float → Float) (a b : Json) : Json :=
  Builtin.ofNumber? do return f (← a.toNumber?) (← b.toNumber?)

def binaryOf (op : BinaryOp) (a b : Json) : Json :=
  match op with
  | .add =>
    if a.isStr || b.isStr then .str (a.display ++ b.display) else arithmetic (· + ·) a b
  | .sub => arithmetic (· - ·) a b
  | .mul => arithmetic (· * ·) a b
  | .div => arithmetic (· / ·) a b
  | .rem => arithmetic Number.remainder a b
  | .strictEq => .bool (a.strictEq b)
  | .strictNe => .bool !(a.strictEq b)
  | .looseEq => .bool (a.looseEq b)
  | .looseNe => .bool !(a.looseEq b)
  | .lt => .bool ((a.compare? b).any (·.isLT))
  | .le => .bool ((a.compare? b).any (·.isLE))
  | .gt => .bool ((a.compare? b).any (·.isGT))
  | .ge => .bool ((a.compare? b).any (·.isGE))
  | .and => if a.truthy then b else a
  | .or => if a.truthy then a else b
  | .coalesce => if a.isNull then b else a

/-- Whether the left operand alone decides the outcome. -/
def decides (op : BinaryOp) (left : Json) : Bool :=
  match op with
  | .and => !left.truthy
  | .or => left.truthy
  | .coalesce => !left.isNull
  | _ => false

mutual

/-- The value of an expression.  Operands are evaluated from left to right and the arguments of a
call before its receiver; a right operand or a branch that does not count is not evaluated. -/
def eval (scope : Scope) : Expr → Except EvalError Json
  | .literal value => .ok value
  | .name n => scope.get n
  | .deref pointer => ((scope.deref pointer).mapError .pointer).map (·.getD .null)
  | .array items => (evalList scope items).map .arr
  | .member object key => do memberOf (← object.eval scope) key
  | .index object key => do
    let object ← object.eval scope
    indexOf object (← key.eval scope)
  | .call callee args => do
    let args ← evalList scope args
    match callee with
    | .member (.name .math) key => Builtin.math key args
    | .member (.name .json) key => Builtin.json key args
    | .member receiver key => do Builtin.method (← receiver.eval scope) key args
    | .name n => Builtin.global n args
    | _ => .error (.notCallable "expression")
  | .unary op operand => do return unaryOf op (← operand.eval scope)
  | .binary op left right => do
    let left ← left.eval scope
    if decides op left then return left
    return binaryOf op left (← right.eval scope)
  | .conditional test yes no => do
    if (← test.eval scope).truthy then yes.eval scope else no.eval scope

def evalList (scope : Scope) : List Expr → Except EvalError (List Json)
  | [] => .ok []
  | e :: es => do
    let value ← e.eval scope
    return value :: (← evalList scope es)

end

end Expr

end FormSchema
