import FormSchema.Json.Writer
import FormSchema.Number.Read

/-!
How values stand in for one another: as truth values, numbers and text, and when two of them count
as equal.
-/

namespace FormSchema.Json

/-- The bound of signed integers. -/
def intBound : Int := Nat.pow 2 63

/-- The value of a computed number: an integer if it is whole and in the range of signed integers,
whose upper end takes `2 ^ 63` as well; null if it is not finite. -/
def ofFloat (x : Float) : Json :=
  match Binary64.ofFloat? x with
  | none => .null
  | some b =>
    match b.toInt? with
    | some n =>
      if -intBound ≤ n ∧ n ≤ intBound then .num (.int (min n (intBound - 1))) else .num (.float x)
    | none => .num (.float x)

/-- Null, false, zero and the empty string are not true; all arrays and objects are. -/
def truthy : Json → Bool
  | .null => false
  | .bool b => b
  | .num n => n.toFloat != 0.0 && !n.toFloat.isNaN
  | .str s => s ≠ ""
  | .arr _ | .obj _ => true

/-- The number that a value stands for, if any.  Text is read without the blanks around it and
counts as zero when nothing is left; an array counts as its only item. -/
def toNumber? : Json → Option Float
  | .null => some 0.0
  | .bool b => some (if b then 1.0 else 0.0)
  | .num n => some n.toFloat
  | .str s =>
    let trimmed := Text.trim s.toList
    if trimmed.isEmpty then some 0.0 else Number.decimal? trimmed
  | .arr [] => some 0.0
  | .arr [item] => item.toNumber?
  | .arr _ | .obj _ => none

/-- The text of a number: whole ones below nine quadrillion have no fraction, however they are
stored. -/
def displayNumber : Number → String
  | .int n => toString n
  | .float x =>
    match Number.wholeOfFloat? x with
    | some n => if n.natAbs < 9000000000000000 then toString n else (Number.float x).text
    | none => (Number.float x).text

mutual

def display : Json → String
  | .null => "null"
  | .bool b => if b then "true" else "false"
  | .num n => displayNumber n
  | .str s => s
  | .arr items => String.intercalate "," (displayItems items)
  | .obj fields => (Json.obj fields).compact

/-- Nulls among the items of an array are not shown. -/
def displayItems : List Json → List String
  | [] => []
  | item :: items => (if item.isNull then "" else item.display) :: displayItems items

end

/-- Equality that takes two numbers as doubles and everything else as it is stored. -/
def strictEq : Json → Json → Bool
  | .num a, .num b => a.toFloat == b.toFloat
  | a, b => a.same b

/-- Equality of two values neither of which is an array or an object. -/
def looseScalarEq : Json → Json → Bool
  | .null, .null => true
  | .null, _ | _, .null => false
  | .str a, .str b => a == b
  | a, b =>
    match a.toNumber?, b.toNumber? with
    | some x, some y => x == y
    | _, _ => false

def isContainer : Json → Bool
  | .arr _ | .obj _ => true
  | _ => false

/-- Equality across kinds: null only equals null, a container is compared with a scalar by its
text, and other scalars of two kinds by their numbers. -/
def looseEq (a b : Json) : Bool :=
  match a.isContainer, b.isContainer with
  | true, true => a.same b
  | true, false => !b.isNull && a.display == b.display
  | false, true => !a.isNull && b.display == a.display
  | false, false => looseScalarEq a b

/-- The order of two values: by characters if both are text, else by their numbers. -/
def compare? (a b : Json) : Option Ordering :=
  match a, b with
  | .str s, .str t => some (compareOfLessAndEq s.toList t.toList)
  | a, b => do
    let x ← a.toNumber?
    let y ← b.toNumber?
    if x < y then return .lt
    else if x == y then return .eq
    else if y < x then return .gt
    else none

end FormSchema.Json
