import FormSchema.Text.Letter

/-! Numbers read from text: indices, decimals, and decimals scaled by a power of ten. -/

namespace FormSchema.Number

def digitValue (c : Char) : Nat := c.toNat - '0'.toNat

def digitsValue (digits : List Char) : Nat :=
  digits.foldl (fun n c => 10 * n + digitValue c) 0

@[simp] theorem digitsValue_nil : digitsValue [] = 0 := rfl

def indexBound : Nat := Nat.pow 2 64

/-- Reads an index: digits after an optional plus sign, with a value below `2 ^ 64`. -/
def index? (text : List Char) : Option Nat :=
  let digits := match text with
    | '+' :: rest => rest
    | text => text
  if digits.isEmpty || !digits.all Text.isPlainDigit then none
  else
    let n := digitsValue digits
    if n < indexBound then some n else none

/-- The double nearest to `digits · 10 ^ exponent`.  Numbers that are out of range by a wide
margin are settled by their size. -/
def nearestDecimal (digits : List Char) (exponent : Int) : Float :=
  let mantissa := digitsValue digits
  let size : Int := digits.length + exponent
  if mantissa = 0 then 0.0
  else if 400 < size ∧ digits.head? ≠ some '0' then 1.0 / 0.0
  else if size < -400 then 0.0
  else if 0 ≤ exponent then Float.ofScientific mantissa false exponent.toNat
  else Float.ofScientific mantissa true (-exponent).toNat

/-- The value of the digits of an exponent with an optional sign, if there are digits and nothing
else. -/
def exponent? (text : List Char) : Option Int :=
  let (negative, digits) := match text with
    | '-' :: rest => (true, rest)
    | '+' :: rest => (false, rest)
    | text => (false, text)
  if digits.isEmpty || !digits.all Text.isPlainDigit then none
  else some (if negative then -(digitsValue digits : Int) else digitsValue digits)

/-- Reads a decimal without a sign: digits with an optional point among or around them, at least
one digit, and an optional exponent; or a name of infinity or not-a-number in any case. -/
def magnitude? (text : List Char) : Option Float :=
  let lower := text.map Char.toLower
  if lower == "inf".toList || lower == "infinity".toList then some (1.0 / 0.0)
  else if lower == "nan".toList then some (0.0 / 0.0)
  else
    let whole := text.takeWhile Text.isPlainDigit
    let rest := text.dropWhile Text.isPlainDigit
    let (fraction, rest) := match rest with
      | '.' :: rest => (rest.takeWhile Text.isPlainDigit, rest.dropWhile Text.isPlainDigit)
      | rest => ([], rest)
    if whole.isEmpty && fraction.isEmpty then none
    else
      let digits := (whole ++ fraction).dropWhile (· == '0')
      let scaled (e : Int) : Float := nearestDecimal digits (e - fraction.length)
      match rest with
      | [] => some (scaled 0)
      | 'e' :: rest | 'E' :: rest => (exponent? rest).map scaled
      | _ => none

def decimal? (text : List Char) : Option Float :=
  match text with
  | '-' :: rest => (magnitude? rest).map (-·)
  | '+' :: rest => magnitude? rest
  | text => magnitude? text

end FormSchema.Number
