import FormSchema.Expr.Coercion
import FormSchema.Expr.Syntax
import FormSchema.Json.Reader
import FormSchema.Pointer
import FormSchema.Text.Case
import FormSchema.Text.Search

/-! The functions that an expression can call. -/

namespace FormSchema

inductive EvalError where
  | pointer (e : Pointer.Error)
  | notCallable (callee : String)
  | arity (name : String) (expected found : Nat)
  | notValue (name : Name)
  | memberOfNull (key : String)
  | callOnNull (name : String)
  | parseWantsText
  | parseFails (fault : Json.Fault)
  deriving DecidableEq, Repr

def EvalError.message : EvalError → String
  | .pointer e => e.message
  | .notCallable callee => s!"cannot call `{callee}`"
  | .arity name expected found => s!"`{name}` expects {expected} argument(s), got {found}"
  | .notValue name => "`" ++ name.label ++ "` is only usable as a function or namespace"
  | .memberOfNull key => s!"cannot read `{key}` of null"
  | .callOnNull name => s!"cannot call `{name}` on null"
  | .parseWantsText => "JSON.parse expects a string"
  | .parseFails _ => "JSON.parse"

namespace Builtin

def ofNumber? (x : Option Float) : Json := (x.map Json.ofFloat).getD .null

/-- A half is rounded up. -/
def round (x : Float) : Float := (x + 0.5).floor

def sign (x : Float) : Float :=
  if x == 0.0 then 0.0 else if 0.0 < x then 1.0 else if x < 0.0 then -1.0 else x

/-- The smaller of two numbers; not-a-number gives way. -/
def least (x y : Float) : Float := if x.isNaN then y else if y < x then y else x

/-- The greater of two numbers; not-a-number gives way. -/
def greatest (x y : Float) : Float := if x.isNaN then y else if x < y then y else x

def unary? (name : String) : Option (Float → Float) :=
  match name with
  | "abs" => some Float.abs
  | "floor" => some Float.floor
  | "ceil" => some Float.ceil
  | "round" => some round
  | "trunc" => some Number.truncate
  | "sqrt" => some Float.sqrt
  | "sign" => some sign
  | _ => none

/-- The outcome of choosing among all arguments; null if one is no number or there is none. -/
def choose (pick : Float → Float → Float) (args : List Json) : Json :=
  match args.mapM Json.toNumber? with
  | some (x :: xs) => .ofFloat (xs.foldl pick x)
  | _ => .null

def math (name : String) (args : List Json) : Except EvalError Json :=
  let full := "Math." ++ name
  match unary? name, name with
  | some f, _ =>
    match args with
    | [] => .error (.arity full 1 0)
    | x :: _ => .ok (ofNumber? (x.toNumber?.map f))
  | none, "min" => .ok (choose least args)
  | none, "max" => .ok (choose greatest args)
  | none, "pow" =>
    match args with
    | x :: y :: _ => .ok (ofNumber? do return (← x.toNumber?).pow (← y.toNumber?))
    | _ => .error (.arity full 2 args.length)
  | none, _ => .error (.notCallable full)

def json (name : String) (args : List Json) : Except EvalError Json :=
  let full := "JSON." ++ name
  match name, args with
  | "stringify", x :: _ => .ok (.str x.compact)
  | "parse", .str text :: _ => (Json.parse Json.Reading.nestingLimit text).mapError .parseFails
  | "parse", _ :: _ => .error .parseWantsText
  | "stringify", [] | "parse", [] => .error (.arity full 1 0)
  | _, _ => .error (.notCallable full)

/-- The longest start of a text that consists of digits, with a sign before them and, if fractions
are wanted, one point among them. -/
def numberPrefix (fraction : Bool) (text : List Char) : List Char :=
  match text with
  | '-' :: rest => '-' :: digits fraction rest
  | '+' :: rest => '+' :: digits fraction rest
  | text => digits fraction text
where
  digits (fraction : Bool) : List Char → List Char
    | [] => []
    | c :: rest =>
      if Text.isPlainDigit c then c :: digits fraction rest
      else if fraction && c == '.' then c :: digits false rest
      else []

def leadingNumber? (fraction : Bool) (text : String) : Option Float :=
  Number.decimal? (numberPrefix fraction (Text.trimStart text.toList))

/-- The functions that are called by their name alone; they look at the first argument. -/
def global (name : Name) (args : List Json) : Except EvalError Json :=
  let first := args.head?.getD .null
  match name with
  | .string => .ok (.str first.display)
  | .number => .ok (ofNumber? first.toNumber?)
  | .boolean => .ok (.bool first.truthy)
  | .isNaN => .ok (.bool first.toNumber?.isNone)
  | .parseFloat => .ok (ofNumber? (leadingNumber? true first.display))
  | .parseInt => .ok (ofNumber? (leadingNumber? false first.display))
  | other => .error (.notCallable other.label)

/-- A position as a value; minus one stands for none. -/
def position (i : Option Nat) : Json := .num (.int (i.elim (-1) Int.ofNat))

/-- The items of an array, shown with a separator between them. -/
def joinItems (separator : Json) (items : List Json) : String :=
  String.intercalate (if separator.isNull then "," else separator.display) (Json.displayItems items)

def stringMethod (s : List Char) (name : String) (arg : Json) : Except EvalError Json :=
  let needle := arg.display.toList
  match name with
  | "toUpperCase" => .ok (.str (String.ofList (Text.toUpper s)))
  | "toLowerCase" => .ok (.str (String.ofList (Text.toLower s)))
  | "trim" => .ok (.str (String.ofList (Text.trim s)))
  | "includes" => .ok (.bool (Text.contains needle s))
  | "startsWith" => .ok (.bool (needle.isPrefixOf s))
  | "endsWith" => .ok (.bool (needle.isSuffixOf s))
  | "indexOf" => .ok (position (Text.indexOf? needle s))
  | _ => .error (.notCallable name)

def arrayMethod (items : List Json) (name : String) (arg : Json) : Except EvalError Json :=
  match name with
  | "includes" => .ok (.bool (items.any fun item => item.strictEq arg))
  | "indexOf" => .ok (position (items.findIdx? fun item => item.strictEq arg))
  | "join" => .ok (.str (joinItems arg items))
  | _ => .error (.notCallable name)

def method (receiver : Json) (name : String) (args : List Json) : Except EvalError Json :=
  let arg := args.head?.getD .null
  match receiver with
  | .str s => stringMethod s.toList name arg
  | .arr items => arrayMethod items name arg
  | .null => .error (.callOnNull name)
  | _ => .error (.notCallable name)

end Builtin

end FormSchema
